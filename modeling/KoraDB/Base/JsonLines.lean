import KoraDB.Base.Json
import KoraDB.Base.Samples

/-!
# JSON objects on lines of their own

A string is written without control characters, so an object of strings and
integers is one line, whatever the strings are (`writeObject_oneLine`).
-/

namespace KoraDB.Base.Json

/-! ## What is written is one line -/

theorem hexDigit_ne_newline : ∀ n < 16, hexDigit n ≠ newline := by decide

theorem unicodeEscape_oneLine {r : Nat} (hr : r < 65536) : newline ∉ unicodeEscape r := by
  have hne : ∀ n < 16, newline ≠ hexDigit n := fun n hn => (hexDigit_ne_newline n hn).symm
  simp only [unicodeEscape, List.mem_cons, List.not_mem_nil, or_false, not_or]
  exact ⟨by decide, by decide, hne _ (by omega), hne _ (by omega), hne _ (by omega),
    hne _ (by omega)⟩

theorem quoteAscii_oneLine (b : UInt8) : newline ∉ quoteAscii b := by
  have hshort : (shortEscapes.all fun p => p.2 != newline) = true := by decide
  unfold quoteAscii
  split
  · rename_i e he
    obtain ⟨l₁, l₂, hsplit, -⟩ := List.lookup_eq_some_iff.mp he
    have hmem : (b, e) ∈ shortEscapes := by
      rw [hsplit]
      exact List.mem_append_right _ List.mem_cons_self
    have hne : e ≠ newline := bne_iff_ne.mp (List.all_eq_true.mp hshort _ hmem)
    simp only [List.mem_cons, List.not_mem_nil, or_false, not_or]
    exact ⟨by decide, hne.symm⟩
  · split
    · exact unicodeEscape_oneLine (Nat.lt_trans b.toNat_lt (by decide))
    · rename_i hplain
      intro hmem
      exact hplain (.inl (List.mem_singleton.mp hmem ▸ by decide))

/-- The bytes of a rune that is not ASCII are not either. -/
theorem le_of_mem_rune {b : UInt8} {rest : Bytes} {r w : Nat} (hb : ¬ b < 0x80)
    (h : decodeRune (b :: rest) = some (r, w)) : ∀ c ∈ (b :: rest).take w, 128 ≤ c.toNat := by
  intro c hc
  cases runeAt_of_decodeRune h with
  | one h0 => exact absurd h0 hb
  | two h0 h1 =>
      rcases List.mem_pair.mp hc with rfl | rfl
      · exact Nat.le_trans (by decide) (isCont_iff.mp h0).1
      · exact (cont_range h1).1
  | three h0 h1 h2 =>
      simp only [List.take_succ_cons, List.take_zero, List.mem_cons, List.not_mem_nil,
        or_false] at hc
      rcases hc with rfl | rfl | rfl
      · exact Nat.le_trans (by decide) (isCont_iff.mp h0).1
      · exact (second_range h1).1.1
      · exact (cont_range h2).1
  | four h0 h1 h2 h3 =>
      simp only [List.take_succ_cons, List.take_zero, List.mem_cons, List.not_mem_nil,
        or_false] at hc
      rcases hc with rfl | rfl | rfl | rfl
      · exact Nat.le_trans (by decide) (isCont_iff.mp h0).1
      · exact (second_range h1).1.1
      · exact (cont_range h2).1
      · exact (cont_range h3).1

theorem quoteAux_oneLine (n : Nat) (s : Bytes) : newline ∉ quoteAux n s := by
  induction n generalizing s with
  | zero => exact List.not_mem_nil
  | succ n ih =>
      cases s with
      | nil => exact List.not_mem_nil
      | cons b rest =>
          unfold quoteAux
          by_cases hb : b < 0x80
          · rw [if_pos hb, List.mem_append]
            exact not_or.mpr ⟨quoteAscii_oneLine b, ih rest⟩
          · rw [if_neg hb]
            cases hd : decodeRune (b :: rest) with
            | none =>
                simp only [List.mem_append]
                exact not_or.mpr ⟨unicodeEscape_oneLine (by decide), ih rest⟩
            | some p =>
                obtain ⟨r, w⟩ := p
                simp only [List.mem_append]
                refine not_or.mpr ⟨?_, ih _⟩
                by_cases hsep : r = 0x2028 ∨ r = 0x2029
                · rw [if_pos hsep]
                  exact unicodeEscape_oneLine (by omega)
                · rw [if_neg hsep]
                  exact fun hmem => absurd (le_of_mem_rune hb hd _ hmem) (by decide)

theorem quote_oneLine (s : Bytes) : newline ∉ quote s := by
  simp only [quote, List.mem_cons, List.mem_append, List.not_mem_nil, or_false, not_or]
  exact ⟨by decide, quoteAux_oneLine _ s, by decide⟩

theorem writeMembers_oneLine {ms : List (Bytes × Bytes)} (h : ∀ m ∈ ms, newline ∉ m.2) :
    newline ∉ writeMembers ms := by
  induction ms with
  | nil => exact List.not_mem_nil
  | cons m ms ih =>
      have hm := h m List.mem_cons_self
      have hms := ih fun m' hm' => h m' (List.mem_cons_of_mem _ hm')
      cases ms with
      | nil =>
          simp only [writeMembers, List.mem_append, List.mem_cons, not_or]
          exact ⟨quote_oneLine _, by decide, hm⟩
      | cons m' ms =>
          rw [writeMembers]
          · simp only [List.mem_append, List.mem_cons, not_or]
            exact ⟨quote_oneLine _, by decide, hm, by decide, hms⟩
          · exact List.cons_ne_nil _ _

theorem writeObject_oneLine {ms : List (Bytes × Bytes)} (h : ∀ m ∈ ms, newline ∉ m.2) :
    newline ∉ writeObject ms := by
  simp only [writeObject, List.mem_cons, List.mem_append, List.not_mem_nil, or_false, not_or]
  exact ⟨by decide, writeMembers_oneLine h, by decide⟩

end KoraDB.Base.Json
