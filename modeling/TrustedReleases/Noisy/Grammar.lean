import TrustedReleases.Noisy.Checksum

/-!
# The grammar of noisy secrets

A string is verified exactly if it is the secret of a namespace and a payload, which can be read off it: the lengths
of an accepted namespace leave no two ways to cut a secret into its parts (`verify_iff`).
-/

namespace TrustedReleases

open Lib

namespace Noisy

/-! ### Every second element -/

theorem everyOther_getElem? {α : Type} (l : List α) (k : ℕ) : (everyOther l)[k]? = l[2 * k]? := by
  induction l using everyOther.induct generalizing k with
  | case1 => simp [everyOther]
  | case2 a =>
    cases k with
    | zero => rfl
    | succ k => simp [everyOther, Nat.mul_succ]
  | case3 a b s ih =>
    cases k with
    | zero => rfl
    | succ k =>
      rw [everyOther, List.getElem?_cons_succ, ih, Nat.mul_succ]
      rfl

theorem everyOther_length {α : Type} (l : List α) : (everyOther l).length = (l.length + 1) / 2 := by
  induction l using everyOther.induct with
  | case1 => simp [everyOther]
  | case2 a => simp [everyOther]
  | case3 a b s ih =>
    simp only [everyOther, List.length_cons, ih]
    omega

private theorem mem_of_mem_everyOther {α : Type} {l : List α} {a : α} (h : a ∈ everyOther l) : a ∈ l := by
  obtain ⟨k, hk⟩ := List.mem_iff_getElem?.1 h
  rw [everyOther_getElem?] at hk
  exact List.mem_of_getElem? hk

/-! ### Namespaces -/

private theorem base32_subset : ∀ b ∈ base32Alphabet, b ∈ base37Alphabet := by decide +kernel

theorem base36_subset : ∀ b ∈ base36Alphabet, b ∈ base37Alphabet := by decide +kernel

theorem pad_mem : pad ∈ base37Alphabet := by decide

private theorem isNamespaceStringSuffix_cons (first : Byte) (rest : Bytes) :
    isNamespaceStringSuffix (first :: rest) = .ok (decide (first ∈ base36Alphabet ∧
      rest.getLastD first ∈ base36Alphabet ∧ ∀ b ∈ rest.dropLast, b ∈ base37Alphabet)) := by
  rw [isNamespaceStringSuffix]
  by_cases hfirst : first ∈ base36Alphabet
  · rw [if_neg (not_not.2 hfirst)]
    by_cases hone : (first :: rest).length = 1
    · obtain rfl : rest = [] := List.length_eq_zero_iff.1 (Nat.succ.inj hone)
      rw [if_pos hone]
      simp [hfirst]
    · rw [if_neg hone]
      by_cases hlast : rest.getLastD first ∈ base36Alphabet
      · rw [if_neg (not_not.2 hlast)]
        by_cases htwo : (first :: rest).length = 2
        · obtain ⟨b, rfl⟩ := List.length_eq_one_iff.1 (Nat.succ.inj htwo)
          have hb : b ∈ base36Alphabet := hlast
          rw [if_pos htwo]
          simp [hfirst, hb]
        · rw [if_neg htwo]
          simp only [hfirst, hlast, true_and]
      · rw [if_pos hlast, decide_eq_false fun h => hlast h.2.1]
  · rw [if_pos hfirst]
    simp [hfirst]

/-- The namespace strings: `2`, or the symbol of the length, `_` and a suffix that begins and ends with a letter or a
digit. -/
def IsNamespace (n : Bytes) : Prop :=
  n = [two] ∨ ∃ lengthPrefix first rest, n = lengthPrefix :: underscore :: first :: rest ∧
    base32Alphabet.idxOf? lengthPrefix = some (rest.length + 2) ∧ first ∈ base36Alphabet ∧
    rest.getLastD first ∈ base36Alphabet ∧ ∀ b ∈ rest.dropLast, b ∈ base37Alphabet

private theorem isNamespaceString_single (b : Byte) : isNamespaceString [b] = .ok (decide (b = two)) := by
  revert b
  decide +kernel

/-- What the recogniser does with two symbols or more. -/
private theorem isNamespaceString_cons (lengthPrefix second : Byte) (suffix : Bytes) :
    isNamespaceString (lengthPrefix :: second :: suffix) =
      if second = underscore ∧ suffix ≠ [] ∧ base32Alphabet.idxOf? lengthPrefix = some (suffix.length + 1) then
        isNamespaceStringSuffix suffix
      else .ok false := by
  rw [isNamespaceString]
  cases hidx : base32Alphabet.idxOf? lengthPrefix with
  | none => simp
  | some i =>
    simp only [List.length_cons, List.head?_cons, List.drop_one, List.tail_cons, Option.some.injEq]
    by_cases hi : i = 1
    · rw [if_pos hi, if_neg]
      rintro ⟨-, hne, hlength⟩
      have hpos := List.length_pos_iff.2 hne
      omega
    · rw [if_neg hi, if_neg (by omega)]
      by_cases hlength : suffix.length + 1 + 1 = i + 1
      · rw [if_neg (not_not.2 hlength)]
        have hne : suffix ≠ [] := by
          rintro rfl
          exact hi (Nat.succ.inj hlength).symm
        have heq : i = suffix.length + 1 := (Nat.succ.inj hlength).symm
        by_cases hsecond : second = underscore
        · rw [if_neg (by simp [hsecond]), if_pos ⟨hsecond, hne, heq⟩]
        · rw [if_pos (by simp [hsecond]), if_neg (by simp [hsecond])]
      · rw [if_pos hlength, if_neg (fun h => hlength (by rw [h.2.2]))]

/-- The recogniser never fails. -/
private theorem isNamespaceString_total (n : Bytes) : ∃ b, isNamespaceString n = .ok b := by
  rcases n with _ | ⟨lengthPrefix, _ | ⟨second, suffix⟩⟩
  · exact ⟨false, rfl⟩
  · exact ⟨_, isNamespaceString_single lengthPrefix⟩
  · rw [isNamespaceString_cons]
    split
    · rename_i h
      obtain ⟨first, rest, rfl⟩ := List.exists_cons_of_ne_nil h.2.1
      exact ⟨_, isNamespaceStringSuffix_cons first rest⟩
    · exact ⟨false, rfl⟩

/-- The recogniser accepts the namespace strings. -/
theorem isNamespaceString_iff (n : Bytes) : isNamespaceString n = .ok true ↔ IsNamespace n := by
  rcases n with _ | ⟨lengthPrefix, _ | ⟨second, suffix⟩⟩
  · simp [isNamespaceString, IsNamespace]
  · rw [isNamespaceString_single]
    simp [IsNamespace]
  · rw [isNamespaceString_cons]
    constructor
    · intro h
      split at h
      · rename_i hcond
        obtain ⟨rfl, hne, hlength⟩ := hcond
        obtain ⟨first, rest, rfl⟩ := List.exists_cons_of_ne_nil hne
        rw [isNamespaceStringSuffix_cons] at h
        exact .inr ⟨lengthPrefix, first, rest, rfl, hlength, of_decide_eq_true (Except.ok.inj h)⟩
      · cases h
    · rintro (hshort | ⟨p, first, rest, heq, hp, hsuffix⟩)
      · cases hshort
      · obtain ⟨rfl, rfl, rfl⟩ : lengthPrefix = p ∧ second = underscore ∧ suffix = first :: rest := by
          simpa using heq
        rw [if_pos ⟨rfl, List.cons_ne_nil _ _, hp⟩, isNamespaceStringSuffix_cons, decide_eq_true hsuffix]

theorem base32Alphabet_length : base32Alphabet.length = 32 := by decide

theorem IsNamespace.length {n : Bytes} (h : IsNamespace n) : n.length = 1 ∨ (3 ≤ n.length ∧ n.length ≤ 32) := by
  rcases h with rfl | ⟨lengthPrefix, first, rest, rfl, hp, -⟩
  · exact .inl rfl
  · refine .inr ⟨by simp, ?_⟩
    have hlt : rest.length + 2 < base32Alphabet.length := (List.idxOf?_eq_some_iff.1 hp).1
    rw [base32Alphabet_length] at hlt
    simp only [List.length_cons]
    omega

private theorem IsNamespace.inField {n : Bytes} (h : IsNamespace n) : InField n := by
  rcases h with rfl | ⟨lengthPrefix, first, rest, rfl, hp, hfirst, hlast, hmiddle⟩
  · simp only [InField, List.forall_mem_singleton]
    decide
  · have hprefix : lengthPrefix ∈ base32Alphabet := by
      by_contra hnot
      rw [List.idxOf?_eq_none_iff.2 hnot] at hp
      cases hp
    have hrest : ∀ b ∈ rest, b ∈ base37Alphabet := by
      intro b hb
      have hne := List.ne_nil_of_mem hb
      rw [← List.dropLast_append_getLast hne, List.mem_append, List.mem_singleton] at hb
      rcases hb with hb | rfl
      · exact hmiddle b hb
      · rw [List.getLastD_eq_getLast?, List.getLast?_eq_some_getLast hne] at hlast
        exact base36_subset _ hlast
    intro b hb
    simp only [List.mem_cons] at hb
    rcases hb with rfl | rfl | rfl | hb
    · exact base32_subset b hprefix
    · exact pad_mem
    · exact base36_subset b hfirst
    · exact hrest b hb

/-! ### Secrets -/

theorem paddedNamespace_length {n : Bytes} (h : n.length ≤ 32) : (constructPaddedNamespaceTag n).length = 32 := by
  simp only [constructPaddedNamespaceTag, List.length_append, List.length_replicate]
  omega

private theorem paddedNamespace_inField {n : Bytes} (h : InField n) : InField (constructPaddedNamespaceTag n) := by
  intro b hb
  rcases List.mem_append.1 hb with hb | hb
  · exact h b hb
  · obtain rfl := List.eq_of_mem_replicate hb
    exact pad_mem

/-- Both messages have 32 symbols of the field. -/
theorem constructMessageTags_inField {n p : Bytes} (hn : IsNamespace n) (hlength : p.length = 32)
    (hp : ∀ b ∈ p, b ∈ base32Alphabet) :
    (InField (constructMessageTags n p).1 ∧ (constructMessageTags n p).1.length = 32) ∧
      InField (constructMessageTags n p).2 ∧ (constructMessageTags n p).2.length = 32 := by
  have hpadded : (constructPaddedNamespaceTag n).length = 32 :=
    paddedNamespace_length (by rcases hn.length with h | h <;> omega)
  have hfield : InField (constructPaddedNamespaceTag n) := paddedNamespace_inField hn.inField
  unfold constructMessageTags
  refine ⟨⟨fun b hb => ?_, ?_⟩, fun b hb => ?_, ?_⟩
  · rcases List.mem_append.1 hb with hb | hb
    · exact hfield b (mem_of_mem_everyOther hb)
    · exact base32_subset b (hp b (mem_of_mem_everyOther hb))
  · rw [List.length_append, everyOther_length, everyOther_length, hpadded, hlength]
  · rcases List.mem_append.1 hb with hb | hb
    · exact hfield b (List.mem_of_mem_drop (mem_of_mem_everyOther hb))
    · exact base32_subset b (hp b (List.mem_of_mem_drop (mem_of_mem_everyOther hb)))
  · rw [List.length_append, everyOther_length, everyOther_length, List.length_drop, List.length_drop, hpadded, hlength]

/-- The parts of a secret. -/
theorem constructNoisySecretTag_eq_ok {n p s : Bytes} :
    constructNoisySecretTag n p = .ok s ↔ ∃ evenChecksum oddChecksum,
      checksumCompute (constructMessageTags n p).1 = .ok evenChecksum ∧
      checksumCompute (constructMessageTags n p).2 = .ok oddChecksum ∧
      s = secretPrefix ++ [pad] ++ n ++ [pad] ++ p ++ constructInterleavedChecksumTag evenChecksum oddChecksum := by
  constructor
  · intro h
    obtain ⟨evenChecksum, heven, h⟩ := bind_eq_ok h
    obtain ⟨oddChecksum, hodd, h⟩ := bind_eq_ok h
    exact ⟨evenChecksum, oddChecksum, heven, hodd, (Except.ok.inj h).symm⟩
  · rintro ⟨evenChecksum, oddChecksum, heven, hodd, rfl⟩
    simp only [constructNoisySecretTag, heven, hodd, ok_bind, pure_eq_ok]

theorem checksum_length {m c : Bytes} (h : checksumCompute m = .ok c) : c.length = 4 := by
  obtain ⟨symbols, -, h⟩ := bind_eq_ok h
  obtain rfl := Except.ok.inj h
  rfl

theorem interleaved_length {e o : Bytes} (he : e.length = 4) (ho : o.length = 4) :
    (constructInterleavedChecksumTag e o).length = 8 := by
  obtain ⟨e₀, e₁, e₂, e₃, rfl⟩ : ∃ a b c d, e = [a, b, c, d] := List.length_eq_four.1 he
  obtain ⟨o₀, o₁, o₂, o₃, rfl⟩ : ∃ a b c d, o = [a, b, c, d] := List.length_eq_four.1 ho
  rfl

/-- A namespace and a payload have a secret. -/
theorem constructNoisySecretTag_total {n p : Bytes} (hn : IsNamespace n) (hlength : p.length = 32)
    (hp : ∀ b ∈ p, b ∈ base32Alphabet) : ∃ s, constructNoisySecretTag n p = .ok s := by
  obtain ⟨⟨heven, -⟩, hodd, -⟩ := constructMessageTags_inField hn hlength hp
  obtain ⟨evenChecksum, he, -⟩ := checksumCompute_inField heven
  obtain ⟨oddChecksum, ho, -⟩ := checksumCompute_inField hodd
  exact ⟨_, constructNoisySecretTag_eq_ok.2 ⟨evenChecksum, oddChecksum, he, ho, rfl⟩⟩

/-- The namespace and the payload are read off their secret. -/
theorem secret_ranges {n p s : Bytes} (hlength : p.length = 32) (h : constructNoisySecretTag n p = .ok s) :
    s.length = 48 + n.length ∧ namespaceRange s = n ∧ payloadRange s = p := by
  obtain ⟨evenChecksum, oddChecksum, heven, hodd, hs⟩ := constructNoisySecretTag_eq_ok.1 h
  have hchecksum := interleaved_length (checksum_length heven) (checksum_length hodd)
  generalize constructInterleavedChecksumTag evenChecksum oddChecksum = checksum at hs hchecksum
  have hprefix : (secretPrefix ++ [pad]).length = 7 := rfl
  have hslength : s.length = 48 + n.length := by
    rw [hs]
    simp only [List.length_append, List.length_singleton, hlength, hchecksum]
    have hsix : secretPrefix.length = 6 := rfl
    omega
  refine ⟨hslength, ?_, ?_⟩
  · have hlast : s.length - 41 = (secretPrefix ++ [pad] ++ n).length := by
      rw [hslength, List.length_append, hprefix]
      omega
    have hcut : s = (secretPrefix ++ [pad] ++ n) ++ ([pad] ++ p ++ checksum) := by
      simp only [hs, List.append_assoc]
    rw [namespaceRange, slice, hlast, hcut, List.take_left, ← hprefix, List.drop_left]
  · have hfirst : s.length - 40 = (secretPrefix ++ [pad] ++ n ++ [pad]).length := by
      rw [hslength, List.length_append, List.length_append, hprefix, List.length_singleton]
      omega
    have hlast : s.length - 8 = (secretPrefix ++ [pad] ++ n ++ [pad] ++ p).length := by
      rw [hslength, List.length_append, List.length_append, List.length_append, hprefix, List.length_singleton, hlength]
      omega
    rw [payloadRange, slice, hlast, hfirst, hs, List.take_left, List.drop_left]

/-! ### Verification -/

private theorem range_lengths {x : Bytes} (h : isCandidate x = true) :
    (namespaceRange x).length = x.length - 48 ∧ (payloadRange x).length = 32 := by
  have hlength := of_decide_eq_true h
  unfold namespaceRange payloadRange slice
  simp only [List.length_drop, List.length_take]
  omega

/-- What verification does, without its failures. -/
theorem verify_eq (x : Bytes) :
    (∃ b, verify x = .ok b) ∧ (verify x = .ok true ↔ isCandidate x = true ∧
      isNamespaceString (namespaceRange x) = .ok true ∧ isPayloadString (payloadRange x) = true ∧
      constructNoisySecretTag (namespaceRange x) (payloadRange x) = .ok x) := by
  unfold verify
  by_cases hcandidate : isCandidate x = true
  · rw [if_pos hcandidate]
    obtain ⟨accepted, haccepted⟩ := isNamespaceString_total (namespaceRange x)
    unfold isNoisySecretTag constructExpectedCandidate constructCandidateNamespace constructCandidatePayload
    simp only [haccepted, ok_bind, pure_eq_ok]
    cases accepted with
    | false => simp
    | true =>
      by_cases hpayload : isPayloadString (payloadRange x) = true
      · have hn := (isNamespaceString_iff _).1 haccepted
        obtain ⟨s, hs⟩ := constructNoisySecretTag_total hn (range_lengths hcandidate).2 (of_decide_eq_true hpayload)
        simp [hcandidate, hpayload, hs]
      · simp [hpayload]
  · rw [if_neg hcandidate]
    simp [hcandidate]

/-- A string is verified exactly if it is the secret of a namespace and a payload. -/
theorem verify_iff (x : Bytes) : verify x = .ok true ↔ ∃ n, ∃ p : Payload,
    isNamespaceString n = .ok true ∧ constructNoisySecretTag n p.value = .ok x := by
  rw [(verify_eq x).2]
  constructor
  · rintro ⟨hcandidate, hn, hp, hs⟩
    exact ⟨namespaceRange x, ⟨payloadRange x, (range_lengths hcandidate).2, of_decide_eq_true hp⟩, hn, hs⟩
  · rintro ⟨n, p, hn, hs⟩
    obtain ⟨hlength, hnamespace, hpayload⟩ := secret_ranges p.length hs
    rw [hnamespace, hpayload]
    refine ⟨decide_eq_true ?_, hn, decide_eq_true p.symbols, hs⟩
    rcases ((isNamespaceString_iff n).1 hn).length with h | h <;> omega

end Noisy

end TrustedReleases
