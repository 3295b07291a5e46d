import Stepwise.Text.Bytes

/-!
# Texts and their bytes

* `takeBytes_append`, `dropBytes_append`: a text is cut behind the bytes of its first characters.
* `bytesOf_eq_flatMap`: the bytes of a text are those of its characters.
* `firstChar?_encode`: the bytes of a character are read as this character, whatever follows them.
* `decodeBytes_bytesOf`: the bytes of a text are read as this text.
-/

namespace Stepwise

/-! ### Counting bytes -/

@[simp] theorem byteLength_append (cs ds : List Char) : byteLength (cs ++ ds) = byteLength cs + byteLength ds := by
  induction cs with
  | nil => simp [byteLength]
  | cons c cs ih => simp only [List.cons_append, byteLength, ih]; omega

theorem byteLength_pos {cs : List Char} (h : cs ≠ []) : 0 < byteLength cs := by
  cases cs with
  | nil => contradiction
  | cons c cs =>
    have := c.utf8Size_pos
    simp only [byteLength]
    omega

theorem length_le_byteLength (cs : List Char) : cs.length ≤ byteLength cs := by
  induction cs with
  | nil => exact Nat.le_refl _
  | cons c cs ih =>
    have := c.utf8Size_pos
    rw [List.length_cons, byteLength]
    omega

theorem byteLength_eq_length {cs : List Char} (h : ∀ c ∈ cs, c.utf8Size = 1) : byteLength cs = cs.length := by
  induction cs with
  | nil => rfl
  | cons c cs ih =>
    obtain ⟨hc, hcs⟩ := List.forall_mem_cons.1 h
    rw [byteLength, hc, ih hcs, List.length_cons, Nat.add_comm]

theorem byteLength_le_of_suffix {cs ds : List Char} (h : cs <:+ ds) : byteLength cs ≤ byteLength ds := by
  obtain ⟨before, rfl⟩ := h
  rw [byteLength_append]
  exact Nat.le_add_left ..

/-- The bytes of the first characters of a text are these characters. -/
theorem takeBytes_append (cs ds : List Char) : takeBytes (byteLength cs) (cs ++ ds) = cs := by
  induction cs with
  | nil =>
    cases ds with
    | nil => rfl
    | cons d ds =>
      have := d.utf8Size_pos
      rw [List.nil_append, byteLength, takeBytes, if_neg (by omega)]
  | cons c cs ih =>
    rw [List.cons_append, byteLength, takeBytes, if_pos (Nat.le_add_right ..), Nat.add_sub_cancel_left, ih]

theorem dropBytes_append (cs ds : List Char) : dropBytes (byteLength cs) (cs ++ ds) = ds := by
  induction cs with
  | nil => cases ds <;> rfl
  | cons c cs ih =>
    have := c.utf8Size_pos
    rw [List.cons_append, byteLength, dropBytes, if_neg (by omega), Nat.add_sub_cancel_left, ih]

/-! ### The bytes of a text -/

theorem toList_loop (bs : ByteArray) (i : Nat) (read : List UInt8) :
    ByteArray.toList.loop bs i read = read.reverse ++ bs.data.toList.drop i := by
  fun_induction ByteArray.toList.loop bs i read with
  | case1 i read hi ih =>
    have hlt : i < bs.data.toList.length := hi
    have hget : bs.get! i = bs.data.toList[i] := getElem!_pos bs.data i hi
    rw [ih, List.drop_eq_getElem_cons hlt, List.reverse_cons, List.append_assoc, List.singleton_append, hget]
  | case2 i read hi =>
    rw [List.drop_eq_nil_of_le (Nat.le_of_not_lt hi), List.append_nil]

theorem bytesOf_eq_flatMap (s : String) : bytesOf s = s.toList.flatMap String.utf8EncodeChar := by
  have hs : s.toUTF8 = (s.toList.flatMap String.utf8EncodeChar).toByteArray := by
    rw [← List.utf8Encode, ← String.toByteArray_ofList, String.ofList_toList, String.toUTF8]
  rw [bytesOf, hs, ByteArray.toList, toList_loop, List.toList_data_toByteArray]
  rfl

theorem bytesOf_ofList (cs : List Char) : bytesOf (String.ofList cs) = cs.flatMap String.utf8EncodeChar := by
  rw [bytesOf_eq_flatMap, String.toList_ofList]

theorem length_encode (cs : List Char) : (cs.flatMap String.utf8EncodeChar).length = byteLength cs := by
  induction cs with
  | nil => rfl
  | cons c cs ih => rw [List.flatMap_cons, List.length_append, String.length_utf8EncodeChar, ih, byteLength]

/-! ### Reading the bytes of a text -/

theorem toNat_byte {n : Nat} (h : n < 256) : (UInt8.ofNat n).toNat = n := UInt8.toNat_ofNat_of_lt' h

theorem continuation?_byte {n : Nat} (h : n < 64) : continuation? (UInt8.ofNat (n + 128)) = some n := by
  have hn : (UInt8.ofNat (n + 128)).toNat = n + 128 := toNat_byte (by omega)
  have hrange : 0x80 ≤ UInt8.ofNat (n + 128) ∧ UInt8.ofNat (n + 128) < 0xC0 := by
    rw [UInt8.le_iff_toNat_le, UInt8.lt_iff_toNat_lt, hn]
    exact ⟨Nat.le_add_left .., Nat.add_lt_add_right h 128⟩
  rw [continuation?, if_pos hrange, hn, Nat.add_sub_cancel]

theorem scalar?_toNat {least n : Nat} {c : Char} (h : least ≤ c.toNat) (hn : n = c.toNat) :
    scalar? least n = some c := by
  subst hn
  rw [scalar?, if_pos ⟨h, c.valid⟩, Char.ofNat_toNat]

/-- The bytes of a character are read as this character, whatever follows them. -/
theorem firstChar?_encode (c : Char) (rest : List UInt8) :
    firstChar? (String.utf8EncodeChar c ++ rest) = some (c, c.utf8Size) := by
  have hlt : c.toNat < 0x110000 := by
    rcases c.valid with h | h
    · exact Nat.lt_trans h (by decide)
    · exact h.2
  rw [← String.length_utf8EncodeChar]
  have hval : c.val.toNat = c.toNat := rfl
  fun_cases String.utf8EncodeChar c with
  | case1 v h₁ =>
    have ha : (UInt8.ofNat v).toNat = v := toNat_byte (by omega)
    simp only [List.cons_append, List.nil_append, firstChar?, ha]
    rw [if_pos (by omega), show v = c.toNat from rfl, Char.ofNat_toNat]
    rfl
  | case2 v h₁ h₂ =>
    have ha : (UInt8.ofNat (v / 64 % 32 + 192)).toNat = v / 64 % 32 + 192 := toNat_byte (by omega)
    simp only [List.cons_append, List.nil_append, firstChar?, ha]
    rw [if_neg (by omega), if_pos (by omega)]
    simp only [continuation?_byte (Nat.mod_lt v (by decide : 0 < 64)), Option.bind_eq_bind, Option.bind_some]
    rw [scalar?_toNat (c := c) (by omega) (by omega)]
    rfl
  | case3 v h₁ h₂ h₃ =>
    have ha : (UInt8.ofNat (v / 4096 % 16 + 224)).toNat = v / 4096 % 16 + 224 := toNat_byte (by omega)
    simp only [List.cons_append, List.nil_append, firstChar?, ha]
    rw [if_neg (by omega), if_neg (by omega), if_pos (by omega)]
    simp only [continuation?_byte (Nat.mod_lt _ (by decide : 0 < 64)), Option.bind_eq_bind, Option.bind_some]
    rw [scalar?_toNat (c := c) (by omega) (by omega)]
    rfl
  | case4 v h₁ h₂ h₃ =>
    have ha : (UInt8.ofNat (v / 262144 % 8 + 240)).toNat = v / 262144 % 8 + 240 := toNat_byte (by omega)
    simp only [List.cons_append, List.nil_append, firstChar?, ha]
    rw [if_neg (by omega), if_neg (by omega), if_neg (by omega), if_pos (by omega)]
    simp only [continuation?_byte (Nat.mod_lt _ (by decide : 0 < 64)), Option.bind_eq_bind, Option.bind_some]
    rw [scalar?_toNat (c := c) (by omega) (by omega)]
    rfl

theorem decodeBytesFrom_append (skipped rest : List UInt8) :
    decodeBytesFrom skipped.length (skipped ++ rest) = decodeBytesFrom 0 rest := by
  induction skipped with
  | nil => rfl
  | cons b skipped ih => exact ih

theorem decodeBytesFrom_encode (cs : List Char) : decodeBytesFrom 0 (cs.flatMap String.utf8EncodeChar) = cs := by
  induction cs with
  | nil => rfl
  | cons c cs ih =>
    obtain ⟨b, bs, hb⟩ := List.exists_cons_of_ne_nil (String.utf8EncodeChar_ne_nil (c := c))
    have hfirst := firstChar?_encode c (cs.flatMap String.utf8EncodeChar)
    have hlength : c.utf8Size - 1 = bs.length := by
      rw [← String.length_utf8EncodeChar, hb]
      rfl
    rw [List.flatMap_cons, hb, List.cons_append, decodeBytesFrom]
    rw [hb, List.cons_append] at hfirst
    simp only [hfirst]
    rw [hlength, decodeBytesFrom_append, ih]

/-- The bytes of a text are read as this text. -/
theorem decodeBytes_bytesOf (s : String) : decodeBytes (bytesOf s) = s := by
  rw [decodeBytes, bytesOf_eq_flatMap, decodeBytesFrom_encode, String.ofList_toList]

end Stepwise
