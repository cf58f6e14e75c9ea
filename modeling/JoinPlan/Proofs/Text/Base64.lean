import JoinPlan.Text.Base64

/-!
# Base64 texts read back

Every symbol gives its number back, so every group gives its bytes back: the
bits a group of one or two bytes leaves unused are zero, as reading demands.  A
text is recovered from its bytes because they are valid UTF-8.  Because of what
reading demands nothing else is read: a text is that of the bytes it is read as.
-/

namespace JoinPlan.Text.Base64

private theorem symbolValue?_symbol_range :
    ∀ n ∈ List.range 64, symbolValue? (symbol n) = some n := by
  decide

theorem symbolValue?_symbol {n : Nat} (hn : n < 64) : symbolValue? (symbol n) = some n :=
  symbolValue?_symbol_range n (List.mem_range.mpr hn)

theorem symbolValue?_padding : symbolValue? '=' = none := by decide

theorem symbol_ne_padding {n : Nat} (hn : n < 64) : symbol n ≠ '=' := by
  intro heq
  have hvalue := symbolValue?_symbol hn
  rw [heq, symbolValue?_padding] at hvalue
  contradiction

section Groups

variable {a b c : Nat}

theorem decodeLast_one (ha : a < 256) :
    decodeLast (symbol (a / 4)) (symbol (a % 4 * 16)) '=' '=' = some [a] := by
  have hfirst : a / 4 * 4 + a % 4 * 16 / 16 = a := by omega
  have hunused : a % 4 * 16 % 16 = 0 := by omega
  simp only [decodeLast, symbolValue?_symbol (show a / 4 < 64 by omega),
    symbolValue?_symbol (show a % 4 * 16 < 64 by omega), Option.bind_eq_bind,
    Option.bind_some, if_true, true_and, hfirst, hunused]

theorem decodeLast_two (ha : a < 256) (hb : b < 256) :
    decodeLast (symbol (a / 4)) (symbol (a % 4 * 16 + b / 16)) (symbol (b % 16 * 4)) '=' =
      some [a, b] := by
  have hfirst : a / 4 * 4 + (a % 4 * 16 + b / 16) / 16 = a := by omega
  have hsecond : (a % 4 * 16 + b / 16) % 16 * 16 + b % 16 * 4 / 4 = b := by omega
  have hunused : b % 16 * 4 % 4 = 0 := by omega
  have hthird : b % 16 * 4 < 64 := by omega
  simp only [decodeLast, symbolValue?_symbol (show a / 4 < 64 by omega),
    symbolValue?_symbol (show a % 4 * 16 + b / 16 < 64 by omega), symbolValue?_symbol hthird,
    symbol_ne_padding hthird, Option.bind_eq_bind, Option.bind_some, if_true, if_false,
    hfirst, hsecond, hunused]

theorem decodeGroup_three (ha : a < 256) (hb : b < 256) (hc : c < 256) :
    decodeGroup (symbol (a / 4)) (symbol (a % 4 * 16 + b / 16))
      (symbol (b % 16 * 4 + c / 64)) (symbol (c % 64)) = some [a, b, c] := by
  have hfirst : a / 4 * 4 + (a % 4 * 16 + b / 16) / 16 = a := by omega
  have hsecond : (a % 4 * 16 + b / 16) % 16 * 16 + (b % 16 * 4 + c / 64) / 4 = b := by omega
  have hthird : (b % 16 * 4 + c / 64) % 4 * 64 + c % 64 = c := by omega
  simp only [decodeGroup, symbolValue?_symbol (show a / 4 < 64 by omega),
    symbolValue?_symbol (show a % 4 * 16 + b / 16 < 64 by omega),
    symbolValue?_symbol (show b % 16 * 4 + c / 64 < 64 by omega),
    symbolValue?_symbol (show c % 64 < 64 by omega), Option.bind_eq_bind, Option.bind_some,
    hfirst, hsecond, hthird]

/-- A last group without padding is a group like the others. -/
theorem decodeLast_three (ha : a < 256) (hb : b < 256) (hc : c < 256) :
    decodeLast (symbol (a / 4)) (symbol (a % 4 * 16 + b / 16))
      (symbol (b % 16 * 4 + c / 64)) (symbol (c % 64)) = some [a, b, c] := by
  rw [← decodeGroup_three ha hb hc]
  simp only [decodeLast, decodeGroup,
    symbol_ne_padding (show b % 16 * 4 + c / 64 < 64 by omega),
    symbol_ne_padding (show c % 64 < 64 by omega), if_false]

end Groups

theorem encode_eq_nil {bytes : List Nat} : encode bytes = [] ↔ bytes = [] := by
  cases bytes using encode.fun_cases <;> simp [encode]

theorem decode_encode {bytes : List Nat} (hbytes : ∀ byte ∈ bytes, byte < 256) :
    decode (encode bytes) = some bytes := by
  induction bytes using encode.induct with
  | case1 => rfl
  | case2 a => exact decodeLast_one (hbytes a (by simp))
  | case3 a b => exact decodeLast_two (hbytes a (by simp)) (hbytes b (by simp))
  | case4 a b c rest ih =>
      have ha := hbytes a (by simp)
      have hb := hbytes b (by simp)
      have hc := hbytes c (by simp)
      have hrest := ih fun byte hbyte => hbytes byte (by simp [hbyte])
      rw [encode]
      -- the last group is read by itself, since only it may be padded
      by_cases hlast : rest = []
      · rw [hlast]
        exact decodeLast_three ha hb hc
      · rw [decode, decodeGroup_three ha hb hc, hrest]
        · rfl
        · exact mt encode_eq_nil.mp hlast

private theorem fromUTF8?_toUTF8 (text : String) : String.fromUTF8? text.toUTF8 = some text :=
  dif_pos text.isValidUTF8

theorem decodeText?_encodeText (text : String) : decodeText? (encodeText text) = some text := by
  have hbytes : ∀ byte ∈ text.toUTF8.data.toList.map UInt8.toNat, byte < 256 := by
    intro byte hbyte
    obtain ⟨value, -, rfl⟩ := List.mem_map.mp hbyte
    exact value.toNat_lt
  have hback : (text.toUTF8.data.toList.map UInt8.toNat).map UInt8.ofNat =
      text.toUTF8.data.toList := by
    simp [Function.comp_def]
  rw [decodeText?, encodeText, String.toList_ofList, decode_encode hbytes]
  rw [Option.bind_eq_bind, Option.bind_some, hback]
  exact fromUTF8?_toUTF8 text

/-! ### What is read is what is written -/

private theorem symbol_symbolValue?_range :
    ∀ n ∈ List.range 128, (symbolValue? (Char.ofNat n)).all
      fun value => value < 64 && symbol value == Char.ofNat n := by
  decide +kernel

theorem toNat_lt_of_symbolValue? {c : Char} {value : Nat} (h : symbolValue? c = some value) :
    c.toNat < 128 := by
  have hle : ∀ {d : Char}, c ≤ d → d.toNat < 128 → c.toNat < 128 := fun hd hlt =>
    Nat.lt_of_le_of_lt (UInt32.le_iff_toNat_le.mp hd) hlt
  unfold symbolValue? at h
  split at h
  · exact hle ‹_ ∧ _›.2 (by decide)
  split at h
  · exact hle ‹_ ∧ _›.2 (by decide)
  split at h
  · exact hle ‹_ ∧ _›.2 (by decide)
  split at h
  · rename_i hplus
    rw [hplus]
    decide
  split at h
  · rename_i hslash
    rw [hslash]
    decide
  · contradiction

/-- A symbol is that of the number it stands for. -/
theorem symbol_of_symbolValue? {c : Char} {value : Nat} (h : symbolValue? c = some value) :
    value < 64 ∧ symbol value = c := by
  have hrange := symbol_symbolValue?_range c.toNat
    (List.mem_range.mpr (toNat_lt_of_symbolValue? h))
  rw [Char.ofNat_toNat, h, Option.all_some] at hrange
  simpa using hrange

section Groups

variable {a b c d : Char} {bytes : List Nat}

theorem written_of_decodeGroup (hread : decodeGroup a b c d = some bytes) :
    (∀ byte ∈ bytes, byte < 256) ∧
      ∀ rest, encode (bytes ++ rest) = a :: b :: c :: d :: encode rest := by
  simp only [decodeGroup, Option.bind_eq_bind, Option.bind_eq_some_iff, Option.some.injEq]
    at hread
  obtain ⟨w, hw, x, hx, y, hy, z, hz, rfl⟩ := hread
  obtain ⟨hwlt, rfl⟩ := symbol_of_symbolValue? hw
  obtain ⟨hxlt, rfl⟩ := symbol_of_symbolValue? hx
  obtain ⟨hylt, rfl⟩ := symbol_of_symbolValue? hy
  obtain ⟨hzlt, rfl⟩ := symbol_of_symbolValue? hz
  constructor
  · simp only [List.forall_mem_cons, List.not_mem_nil, false_imp_iff, implies_true, and_true]
    omega
  · intro rest
    have hfirst : (w * 4 + x / 16) / 4 = w := by omega
    have hsecond : (w * 4 + x / 16) % 4 * 16 + (x % 16 * 16 + y / 4) / 16 = x := by omega
    have hthird : (x % 16 * 16 + y / 4) % 16 * 4 + (y % 4 * 64 + z) / 64 = y := by omega
    have hfourth : (y % 4 * 64 + z) % 64 = z := by omega
    rw [List.cons_append, List.cons_append, List.cons_append, List.nil_append, encode, hfirst,
      hsecond, hthird, hfourth]

theorem written_of_decodeLast_one (hread : decodeLast a b '=' d = some bytes) :
    (∀ byte ∈ bytes, byte < 256) ∧ encode bytes = [a, b, '=', d] := by
  simp only [decodeLast, if_true, Option.bind_eq_bind, Option.bind_eq_some_iff,
    Option.ite_none_right_eq_some, Option.some.injEq] at hread
  obtain ⟨w, hw, x, hx, ⟨rfl, hunused⟩, rfl⟩ := hread
  obtain ⟨hwlt, rfl⟩ := symbol_of_symbolValue? hw
  obtain ⟨hxlt, rfl⟩ := symbol_of_symbolValue? hx
  have hbyte : w * 4 + x / 16 < 256 := by omega
  have hfirst : (w * 4 + x / 16) / 4 = w := by omega
  have hsecond : (w * 4 + x / 16) % 4 * 16 = x := by omega
  exact ⟨by simpa using hbyte, by rw [encode, hfirst, hsecond]⟩

theorem written_of_decodeLast_two (hc : c ≠ '=') (hread : decodeLast a b c '=' = some bytes) :
    (∀ byte ∈ bytes, byte < 256) ∧ encode bytes = [a, b, c, '='] := by
  simp only [decodeLast, hc, if_true, if_false, Option.bind_eq_bind, Option.bind_eq_some_iff,
    Option.ite_none_right_eq_some, Option.some.injEq] at hread
  obtain ⟨w, hw, x, hx, y, hy, hunused, rfl⟩ := hread
  obtain ⟨hwlt, rfl⟩ := symbol_of_symbolValue? hw
  obtain ⟨hxlt, rfl⟩ := symbol_of_symbolValue? hx
  obtain ⟨hylt, rfl⟩ := symbol_of_symbolValue? hy
  have hbytes : w * 4 + x / 16 < 256 ∧ x % 16 * 16 + y / 4 < 256 := by omega
  have hfirst : (w * 4 + x / 16) / 4 = w := by omega
  have hsecond : (w * 4 + x / 16) % 4 * 16 + (x % 16 * 16 + y / 4) / 16 = x := by omega
  have hthird : (x % 16 * 16 + y / 4) % 16 * 4 = y := by omega
  exact ⟨by simpa using hbytes, by rw [encode, hfirst, hsecond, hthird]⟩

theorem written_of_decodeLast (hread : decodeLast a b c d = some bytes) :
    (∀ byte ∈ bytes, byte < 256) ∧ encode bytes = [a, b, c, d] := by
  by_cases hc : c = '='
  · subst hc
    exact written_of_decodeLast_one hread
  by_cases hd : d = '='
  · subst hd
    exact written_of_decodeLast_two hc hread
  -- without padding the last group is read like the others
  have hgroup : decodeGroup a b c d = some bytes := by
    simpa only [decodeLast, decodeGroup, hc, hd, if_false] using hread
  obtain ⟨hbytes, hwritten⟩ := written_of_decodeGroup hgroup
  exact ⟨hbytes, by simpa [encode] using hwritten []⟩

end Groups

/-- A text that is read is what is written for its bytes. -/
theorem written_of_decode {text : List Char} {bytes : List Nat} (h : decode text = some bytes) :
    (∀ byte ∈ bytes, byte < 256) ∧ encode bytes = text := by
  induction text using decode.induct generalizing bytes with
  | case1 =>
      obtain rfl := Option.some.inj h
      exact ⟨by simp, rfl⟩
  | case2 a b c d => exact written_of_decodeLast h
  | case3 a b c d rest hrest ih =>
      rw [decode] at h
      · obtain ⟨group, hgroup, h⟩ := Option.bind_eq_some_iff.mp h
        obtain ⟨others, hothers, h⟩ := Option.bind_eq_some_iff.mp h
        obtain rfl := Option.some.inj h
        obtain ⟨hbytes, hwritten⟩ := written_of_decodeGroup hgroup
        obtain ⟨hlater, hlaterWritten⟩ := ih hothers
        exact ⟨List.forall_mem_append.mpr ⟨hbytes, hlater⟩, by rw [hwritten, hlaterWritten]⟩
      · exact hrest
  | case4 text hnil hgroup hgroups =>
      rw [decode] at h
      · contradiction
      · exact hnil
      · exact hgroup
      · exact hgroups

private theorem toUTF8_of_fromUTF8? {bytes : ByteArray} {text : String}
    (h : String.fromUTF8? bytes = some text) : text.toUTF8 = bytes := by
  unfold String.fromUTF8? at h
  split at h
  · obtain rfl := Option.some.inj h
    rfl
  · contradiction

/-- A base64 text holds a text exactly if it is the one that is written for it. -/
theorem decodeText?_eq_some_iff {cursor text : String} :
    decodeText? cursor = some text ↔ cursor = encodeText text := by
  constructor
  · intro h
    obtain ⟨bytes, hbytes, htext⟩ := Option.bind_eq_some_iff.mp h
    obtain ⟨hlt, hwritten⟩ := written_of_decode hbytes
    have hback : (bytes.map UInt8.ofNat).map UInt8.toNat = bytes := by
      rw [List.map_map]
      refine (List.map_congr_left fun byte hbyte => ?_).trans (List.map_id bytes)
      exact UInt8.toNat_ofNat_of_lt' (hlt byte hbyte)
    rw [encodeText, toUTF8_of_fromUTF8? htext, List.toList_toArray, hback, hwritten,
      String.ofList_toList]
  · rintro rfl
    exact decodeText?_encodeText text

end JoinPlan.Text.Base64
