import KoraDB.Auth.Keys

/-!
# Tokens: printing and parsing

`parseToken` accepts exactly the strings `kdb_<id>_<secret>` with sixteen and
sixty-four hexadecimal digits, of either case. A minted token is one of them,
in lower case.
-/

namespace KoraDB.Auth

open KoraDB.Base KoraDB.Catalog

theorem isHexDigit_hexDigit : ∀ n : Nat, n < 16 → isHexDigit (hexDigit n) = true := by
  decide

theorem hexEncode_length (b : Bytes) : (hexEncode b).length = 2 * b.length := by
  unfold hexEncode
  induction b with
  | nil => rfl
  | cons x b ih =>
      rw [List.flatMap_cons, List.length_append, ih, List.length_cons]
      simp only [List.length_cons, List.length_nil]
      omega

theorem hexEncode_digits (b : Bytes) : ∀ d ∈ hexEncode b, isHexDigit d = true := by
  intro d hd
  obtain ⟨x, _, hx⟩ := List.mem_flatMap.mp hd
  have hlt : x.toNat < 256 := x.toNat_lt
  simp only [List.mem_cons, List.not_mem_nil, or_false] at hx
  rcases hx with hx | hx
  · rw [hx]
    exact isHexDigit_hexDigit _ (by omega)
  · rw [hx]
    exact isHexDigit_hexDigit _ (by omega)

theorem isHex_hexEncode (b : Bytes) : isHex (hexEncode b) = true := by
  unfold isHex
  rw [Bool.and_eq_true, List.all_eq_true, hexEncode_length]
  refine ⟨hexEncode_digits b, ?_⟩
  have : 2 * b.length % 2 = 0 := by omega
  rw [this]
  rfl

theorem isHexDigit_lt {d : UInt8} (h : isHexDigit d = true) : d < 0x80 := by
  simp only [isHexDigit, Bool.or_eq_true, Bool.and_eq_true, decide_eq_true_eq,
    UInt8.le_iff_toNat_le] at h
  rw [UInt8.lt_iff_toNat_lt]
  simp only [UInt8.toNat_ofNat] at h ⊢
  omega

/-- Hex strings are ASCII and survive the JSON round trip. -/
theorem validString_hexEncode (b : Bytes) : validString (hexEncode b) = true :=
  validString_of_ascii fun d hd => isHexDigit_lt (hexEncode_digits b d hd)

/-- No hex string holds the separator. -/
theorem underscore_not_mem {s : Bytes} (h : isHex s = true) : underscore ∉ s := by
  intro hmem
  simp only [isHex, Bool.and_eq_true, List.all_eq_true] at h
  exact absurd (h.1 underscore hmem) (by decide)

theorem splitOn_halves {keyID secret : Bytes} (hid : underscore ∉ keyID)
    (hsec : underscore ∉ secret) :
    (keyID ++ underscore :: secret).splitOn underscore = [keyID, secret] := by
  have hparts : ∀ l ∈ [keyID, secret], underscore ∉ l := by
    intro l hl
    simp only [List.mem_cons, List.not_mem_nil, or_false] at hl
    rcases hl with hl | hl
    · rw [hl]
      exact hid
    · rw [hl]
      exact hsec
  have h := List.splitOn_intercalate underscore hparts (by simp)
  simpa [List.intercalate] using h

/-- The strings `parseToken` accepts, and what it reads off them. -/
theorem parseToken_eq_ok_iff {token keyID secret : Bytes} :
    parseToken token = .ok (keyID, secret) ↔
      token = tokenOf keyID secret ∧ keyID.length = 16 ∧ secret.length = 64 ∧
        isHex keyID = true ∧ isHex secret = true := by
  constructor
  · intro h
    unfold parseToken at h
    split at h
    · rename_i hpre
      obtain ⟨rest, hrest⟩ := List.isPrefixOf_iff_prefix.mp hpre
      split at h
      · rename_i id sec hsplit
        split at h
        · rename_i hok
          simp only [Except.ok.injEq, Prod.mk.injEq] at h
          obtain ⟨rfl, rfl⟩ := h
          simp only [Bool.and_eq_true, beq_iff_eq] at hok
          refine ⟨?_, hok.1.1.1, hok.1.1.2, hok.1.2, hok.2⟩
          -- joining the two parts gives back what followed the prefix
          have hjoin : [underscore].intercalate
              ((token.drop tokenPrefix.length).splitOn underscore) =
              token.drop tokenPrefix.length := List.intercalate_splitOn underscore
          rw [hsplit, ← hrest, List.drop_left] at hjoin
          rw [← hrest, ← hjoin]
          simp [tokenOf, List.intercalate]
        · cases h
      · cases h
    · cases h
  · intro h
    obtain ⟨rfl, hid, hsec, hhid, hhsec⟩ := h
    have hpre : tokenPrefix.isPrefixOf (tokenOf keyID secret) = true := by
      rw [List.isPrefixOf_iff_prefix]
      exact ⟨keyID ++ underscore :: secret, by simp [tokenOf]⟩
    have hdrop : (tokenOf keyID secret).drop tokenPrefix.length =
        keyID ++ underscore :: secret := by
      unfold tokenOf
      rw [List.append_assoc, List.drop_left]
    unfold parseToken
    rw [if_pos hpre, hdrop, splitOn_halves (underscore_not_mem hhid) (underscore_not_mem hhsec)]
    simp [hid, hsec, hhid, hhsec]

theorem KeyRequest.keyID_length (q : KeyRequest) : q.keyID.length = 16 := by
  unfold KeyRequest.keyID
  rw [hexEncode_length, Vector.length_toList]

theorem KeyRequest.secret_length (q : KeyRequest) : q.secret.length = 64 := by
  unfold KeyRequest.secret
  rw [hexEncode_length, Vector.length_toList]

/-- A minted token parses back into its two halves. -/
theorem parseToken_token (q : KeyRequest) : parseToken q.token = .ok (q.keyID, q.secret) :=
  parseToken_eq_ok_iff.mpr
    ⟨rfl, q.keyID_length, q.secret_length, isHex_hexEncode _, isHex_hexEncode _⟩

end KoraDB.Auth
