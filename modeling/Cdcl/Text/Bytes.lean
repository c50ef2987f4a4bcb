import Cdcl.Text.Layout
/-!
# Text.Bytes — the lines of a text in UTF-8

No character but the line feed has the byte of a line feed in its encoding.  So the lines of an encoded text are the
encoded lines of the text (`lines_toUTF8`), and each is decoded for itself.
-/
namespace Cdcl
namespace Text

/-- The encoding of characters, one after the other. -/
def bytes (cs : List Char) : List UInt8 := cs.flatMap String.utf8EncodeChar

/-- The text that bytes encode. -/
def decode? (bytes : List UInt8) : Option (List Char) := (String.fromUTF8? ⟨bytes.toArray⟩).map String.toList

theorem toList_loop (bs : ByteArray) (i : Nat) (r : List UInt8) :
    ByteArray.toList.loop bs i r = r.reverse ++ bs.data.toList.drop i := by
  fun_induction ByteArray.toList.loop bs i r with
  | case1 i r hlt ih =>
    have hi : i < bs.data.toList.length := by simpa using hlt
    have hget : bs.get! i = bs.data.toList[i] := by
      rw [ByteArray.get!, getElem!_pos bs.data i hlt, Array.getElem_toList]
    rw [ih, List.drop_eq_getElem_cons hi, hget]
    simp
  | case2 i r hge =>
    rw [List.drop_eq_nil_of_le (by simpa using hge), List.append_nil]

theorem toList_toUTF8 (text : String) : text.toUTF8.toList = bytes text.toList := by
  have hencode : text.toUTF8 = (bytes text.toList).toByteArray := String.utf8Encode_toList.symm
  rw [ByteArray.toList, toList_loop, hencode, List.toList_data_toByteArray]
  rfl

/-- **The byte of a line feed is that of a line feed alone.** -/
theorem eq_lineFeed_of_mem {c : Char} (h : (10 : UInt8) ∈ String.utf8EncodeChar c) : c = '\n' := by
  have hofNat : ∀ n < 256, (10 : UInt8) = UInt8.ofNat n → n = 10 := fun n hn he => by
    have he := congrArg UInt8.toNat he
    rw [UInt8.toNat_ofNat', Nat.mod_eq_of_lt hn] at he
    exact he.symm
  unfold String.utf8EncodeChar at h
  dsimp only at h
  split at h
  · rename_i hv
    have := hofNat c.val.toNat (by omega) (List.mem_singleton.1 h)
    exact Char.toNat_inj.1 this
  · -- a byte of a longer encoding is 128 at least
    exfalso
    split at h
    · simp only [List.mem_cons, List.not_mem_nil, or_false] at h
      rcases h with h | h <;> have := hofNat _ (by omega) h <;> omega
    · split at h
      · simp only [List.mem_cons, List.not_mem_nil, or_false] at h
        rcases h with h | h | h <;> have := hofNat _ (by omega) h <;> omega
      · simp only [List.mem_cons, List.not_mem_nil, or_false] at h
        rcases h with h | h | h | h <;> have := hofNat _ (by omega) h <;> omega

theorem bytes_lineFeed : String.utf8EncodeChar '\n' = [10] := rfl

/-- The lines of a text, encoded, are the lines of the encoded text. -/
theorem Lined.bytes {ls : List (List Char)} {text : List Char} (h : Lined (· == '\n') ls text) :
    Lined (· == 10) (ls.map Text.bytes) (Text.bytes text) := by
  have hline : ∀ {line : List Char}, (∀ c ∈ line, (c == '\n') = false) → ∀ b ∈ Text.bytes line, (b == 10) = false := by
    intro line hline b hb
    obtain ⟨c, hc, hb⟩ := List.mem_flatMap.1 hb
    refine beq_eq_false_iff_ne.2 fun he => ?_
    exact beq_eq_false_iff_ne.1 (hline c hc) (eq_lineFeed_of_mem (he ▸ hb))
  induction h with
  | nil => exact .nil
  | last hne h =>
    refine .last (fun he => hne (List.eq_nil_iff_forall_not_mem.2 fun c hc => ?_)) (hline h)
    exact String.utf8EncodeChar_ne_nil (List.flatMap_eq_nil_iff.1 he c hc)
  | @line line rest lines c h hc _ ih =>
    rw [beq_iff_eq] at hc
    subst hc
    have hsplit : Text.bytes (line ++ '\n' :: rest) = Text.bytes line ++ 10 :: Text.bytes rest := by
      rw [Text.bytes, List.flatMap_append, List.flatMap_cons, bytes_lineFeed]
      rfl
    rw [hsplit]
    exact .line (hline h) rfl ih

theorem decode?_bytes (cs : List Char) : decode? (bytes cs) = some cs := by
  have hencode : (⟨(bytes cs).toArray⟩ : ByteArray) = cs.utf8Encode := by
    refine ByteArray.ext (Array.toList_inj.1 ?_)
    rw [List.utf8Encode, List.toList_data_toByteArray]
    rfl
  have hof : String.fromUTF8? cs.utf8Encode = some (String.ofList cs) := by
    rw [String.fromUTF8?, dif_pos ByteArray.isValidUTF8_utf8Encode]
    refine congrArg some (String.toByteArray_inj.1 ?_)
    rw [String.toByteArray_ofList]
    rfl
  rw [decode?, hencode, hof, Option.map_some, String.toList_ofList]

/-- **The lines of a text in UTF-8, each decoded, are the lines of the text.** -/
theorem lines_toUTF8 (text : String) :
    (lines (· == 10) text.toUTF8.toList).map decode? = (lines (· == '\n') text.toList).map some := by
  rw [toList_toUTF8, (lines_eq_iff.1 rfl : Lined (· == '\n') _ text.toList).bytes.lines_eq, List.map_map]
  exact List.map_congr_left fun line _ => decode?_bytes line

end Text
end Cdcl
