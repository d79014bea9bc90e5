import TrustedReleases.Noisy.Grammar

/-!
# Altered secrets

The symbols of a secret at even places of its padded namespace, its payload and its checksum are one codeword, those
at odd places another one.  A string of the length of a secret that differs from it in at most four symbols of each
codeword is not verified (`verify_altered`).  Symbols of one codeword are at least two characters apart, so that eight
characters in a row hold at most four of them.
-/

namespace TrustedReleases

open Lib

namespace Noisy

/-! ### The two codewords -/

def checksumRange (candidate : Bytes) : Bytes := candidate.drop (candidate.length - 8)

/-- The symbols of a codeword: the even one for the parity 0, the odd one for the parity 1. -/
def codeword (parity : ℕ) (candidate : Bytes) : Bytes :=
  everyOther ((constructPaddedNamespaceTag (namespaceRange candidate)).drop parity) ++
    everyOther ((payloadRange candidate).drop parity) ++ everyOther ((checksumRange candidate).drop parity)

private theorem everyOther_interleaved {e o : Bytes} (he : e.length = 4) (ho : o.length = 4) :
    everyOther (constructInterleavedChecksumTag e o) = e ∧
      everyOther ((constructInterleavedChecksumTag e o).drop 1) = o := by
  obtain ⟨e₀, e₁, e₂, e₃, rfl⟩ : ∃ a b c d, e = [a, b, c, d] := List.length_eq_four.1 he
  obtain ⟨o₀, o₁, o₂, o₃, rfl⟩ : ∃ a b c d, o = [a, b, c, d] := List.length_eq_four.1 ho
  exact ⟨rfl, rfl⟩

/-- A list is known from its elements at even and at odd places. -/
private theorem everyOther_ext {α : Type} {l l' : List α} (heven : everyOther l = everyOther l')
    (hodd : everyOther (l.drop 1) = everyOther (l'.drop 1)) : l = l' := by
  refine List.ext_getElem? fun i => ?_
  rcases Nat.even_or_odd' i with ⟨k, rfl | rfl⟩
  · rw [← everyOther_getElem?, ← everyOther_getElem?, heven]
  · have hat : (everyOther (l.drop 1))[k]? = (everyOther (l'.drop 1))[k]? := by rw [hodd]
    rwa [everyOther_getElem?, everyOther_getElem?, List.getElem?_drop, List.getElem?_drop, Nat.add_comm 1] at hat

/-- The codewords of a secret are its messages with their checksums. -/
private theorem codeword_secret {n p s : Bytes} (hlength : p.length = 32) (h : constructNoisySecretTag n p = .ok s) :
    ∃ evenChecksum oddChecksum,
      checksumCompute (constructMessageTags n p).1 = .ok evenChecksum ∧
      checksumCompute (constructMessageTags n p).2 = .ok oddChecksum ∧
      codeword 0 s = (constructMessageTags n p).1 ++ evenChecksum ∧
      codeword 1 s = (constructMessageTags n p).2 ++ oddChecksum := by
  obtain ⟨hslength, hn, hp⟩ := secret_ranges hlength h
  obtain ⟨evenChecksum, oddChecksum, heven, hodd, hs⟩ := constructNoisySecretTag_eq_ok.1 h
  have height := interleaved_length (checksum_length heven) (checksum_length hodd)
  have hchecksum : checksumRange s = constructInterleavedChecksumTag evenChecksum oddChecksum := by
    have hsplit : s.length - 8 = (secretPrefix ++ [pad] ++ n ++ [pad] ++ p).length := by
      rw [hs, List.length_append, height]
      omega
    rw [checksumRange, hsplit, hs, List.drop_left]
  obtain ⟨he, ho⟩ := everyOther_interleaved (checksum_length heven) (checksum_length hodd)
  refine ⟨evenChecksum, oddChecksum, heven, hodd, ?_, ?_⟩
  · rw [codeword, hn, hp, hchecksum, List.drop_zero, List.drop_zero, List.drop_zero, he]
    rfl
  · rw [codeword, hn, hp, hchecksum, ho]
    rfl

/-- Two secrets of one length whose codewords differ in at most four symbols each are the same. -/
private theorem secret_eq {n p n' p' s t : Bytes} (hn : IsNamespace n) (hp : ∀ b ∈ p, b ∈ base32Alphabet)
    (hlength : p.length = 32) (hs : constructNoisySecretTag n p = .ok s) (hn' : IsNamespace n')
    (hp' : ∀ b ∈ p', b ∈ base32Alphabet) (hlength' : p'.length = 32) (ht : constructNoisySecretTag n' p' = .ok t)
    (hst : t.length = s.length) (heven : differences (codeword 0 s) (codeword 0 t) ≤ 4)
    (hodd : differences (codeword 1 s) (codeword 1 t) ≤ 4) : t = s := by
  obtain ⟨ec, oc, hec, hoc, hes, hos⟩ := codeword_secret hlength hs
  obtain ⟨ec', oc', hec', hoc', het, hot⟩ := codeword_secret hlength' ht
  obtain ⟨⟨hmf, hml⟩, hmf₁, hml₁⟩ := constructMessageTags_inField hn hlength hp
  obtain ⟨⟨hmf', hml'⟩, hmf₁', hml₁'⟩ := constructMessageTags_inField hn' hlength' hp'
  rw [hes, het] at heven
  rw [hos, hot] at hodd
  have hm₀ := message_eq_of_differences hmf hmf' hml hml' hec hec' heven
  have hm₁ := message_eq_of_differences hmf₁ hmf₁' hml₁ hml₁' hoc hoc' hodd
  have hnlength : n.length = n'.length := by
    have h₁ := (secret_ranges hlength hs).1
    have h₂ := (secret_ranges hlength' ht).1
    omega
  have hle : n.length ≤ 32 := by rcases hn.length with h | h <;> omega
  have hpadded : (constructPaddedNamespaceTag n).length = 32 := paddedNamespace_length hle
  have hpadded' : (constructPaddedNamespaceTag n').length = 32 := paddedNamespace_length (hnlength ▸ hle)
  have hsplit₀ := List.append_inj hm₀ (by rw [everyOther_length, everyOther_length, hpadded, hpadded'])
  have hsplit₁ := List.append_inj hm₁ (by
    rw [everyOther_length, everyOther_length, List.length_drop, List.length_drop, hpadded, hpadded'])
  have hnames : n = n' := (List.append_inj (everyOther_ext hsplit₀.1 hsplit₁.1) hnlength).1
  have hpayloads : p = p' := everyOther_ext hsplit₀.2 hsplit₁.2
  subst hnames hpayloads
  exact Except.ok.inj (ht.symm.trans hs)

/-! ### Where the symbols are -/

/-- The place of a symbol of a codeword in a secret whose namespace has a length. -/
def position (parity namespaceLength k : ℕ) : ℕ :=
  if k < 16 then 7 + (2 * k + parity) else 8 + namespaceLength + (2 * (k - 16) + parity)

private theorem codeword_getElem? {x : Bytes} {parity m k : ℕ} (hx : x.length = 48 + m) (hm : m ≤ 32)
    (hparity : parity ≤ 1)
    (hk : k < 36) :
    (codeword parity x)[k]? = if k < 16 ∧ m ≤ 2 * k + parity then some pad else x[position parity m k]? := by
  have hn : (namespaceRange x).length = m := by
    simp only [namespaceRange, slice, List.length_drop, List.length_take, hx]
    omega
  have hp : (payloadRange x).length = 32 := by
    simp only [payloadRange, slice, List.length_drop, List.length_take, hx]
    omega
  have hpadded : (constructPaddedNamespaceTag (namespaceRange x)).length = 32 := paddedNamespace_length (by omega)
  have hfirst : (everyOther ((constructPaddedNamespaceTag (namespaceRange x)).drop parity)).length = 16 := by
    rw [everyOther_length, List.length_drop, hpadded]
    omega
  have hsecond : (everyOther ((payloadRange x).drop parity)).length = 16 := by
    rw [everyOther_length, List.length_drop, hp]
    omega
  rw [codeword, position]
  by_cases hk₁ : k < 16
  · rw [List.append_assoc, List.getElem?_append_left (by omega), everyOther_getElem?, List.getElem?_drop, if_pos hk₁]
    by_cases hpad : m ≤ 2 * k + parity
    · rw [if_pos ⟨hk₁, hpad⟩, constructPaddedNamespaceTag, List.getElem?_append_right (by omega),
        List.getElem?_replicate, if_pos (by omega)]
    · rw [if_neg (fun h => hpad h.2), constructPaddedNamespaceTag, List.getElem?_append_left (by omega), namespaceRange,
        slice, List.getElem?_drop, List.getElem?_take_of_lt (by omega), Nat.add_comm parity]
  · rw [if_neg (fun h => hk₁ h.1), if_neg hk₁]
    by_cases hk₂ : k < 32
    · rw [List.getElem?_append_left (by rw [List.length_append]; omega), List.getElem?_append_right (by omega), hfirst,
        everyOther_getElem?, List.getElem?_drop, payloadRange, slice, List.getElem?_drop,
        List.getElem?_take_of_lt (by omega)]
      congr 1
      omega
    · rw [List.getElem?_append_right (by rw [List.length_append]; omega), List.length_append, hfirst, hsecond,
        everyOther_getElem?, List.getElem?_drop, checksumRange, List.getElem?_drop]
      congr 1
      omega

private theorem codeword_length {x : Bytes} {parity m : ℕ} (hx : x.length = 48 + m) (hm : m ≤ 32)
    (hparity : parity ≤ 1) :
    (codeword parity x).length = 36 := by
  have hn : (namespaceRange x).length = m := by
    simp only [namespaceRange, slice, List.length_drop, List.length_take, hx]
    omega
  have hpadded : (constructPaddedNamespaceTag (namespaceRange x)).length = 32 := paddedNamespace_length (by omega)
  simp only [codeword, List.length_append, everyOther_length, List.length_drop, hpadded, payloadRange, slice,
    List.length_take, checksumRange, hx]
  omega

/-- Symbols of a codeword that differ are at places that differ, which are no padding. -/
private theorem codeword_differs {s t : Bytes} {parity m k : ℕ} (hs : s.length = 48 + m) (ht : t.length = 48 + m)
    (hm : m ≤ 32)
    (hparity : parity ≤ 1) (h : (codeword parity s)[k]? ≠ (codeword parity t)[k]?) :
    s[position parity m k]? ≠ t[position parity m k]? ∧ (k < 16 → 2 * k + parity < m) := by
  have hk : k < 36 := by
    by_contra hk
    refine h ?_
    rw [List.getElem?_eq_none (by rw [codeword_length hs hm hparity]; omega),
      List.getElem?_eq_none (by rw [codeword_length ht hm hparity]; omega)]
  rw [codeword_getElem? hs hm hparity hk, codeword_getElem? ht hm hparity hk] at h
  by_cases hpad : k < 16 ∧ m ≤ 2 * k + parity
  · rw [if_pos hpad, if_pos hpad] at h
    exact absurd rfl h
  · rw [if_neg hpad, if_neg hpad] at h
    exact ⟨h, fun hk₁ => Nat.lt_of_not_le fun hle => hpad ⟨hk₁, hle⟩⟩

/-- Symbols of one codeword are at least two characters apart. -/
private theorem position_apart {parity m k l : ℕ} (hk : k < 16 → 2 * k + parity < m) (hkl : k < l) :
    position parity m k + 2 ≤ position parity m l := by
  unfold position
  split_ifs <;> omega

private theorem codeword_differences_le {s t : Bytes} {parity m : ℕ} (hs : s.length = 48 + m) (ht : t.length = 48 + m)
    (hm : m ≤ 32) (hparity : parity ≤ 1) : differences (codeword parity s) (codeword parity t) ≤ differences s t := by
  refine Finset.card_le_card_of_injOn (position parity m) (fun k hk => ?_) (fun k hk l hl heq => ?_)
  · have hdiff := (codeword_differs hs ht hm hparity (Finset.mem_filter.1 hk).2).1
    refine Finset.mem_coe.2 (Finset.mem_filter.2 ⟨Finset.mem_range.2 ?_, hdiff⟩)
    by_contra hle
    refine hdiff ?_
    rw [List.getElem?_eq_none (by omega), List.getElem?_eq_none (by omega)]
  · have hk' := (codeword_differs hs ht hm hparity (Finset.mem_filter.1 hk).2).2
    have hl' := (codeword_differs hs ht hm hparity (Finset.mem_filter.1 hl).2).2
    rcases Nat.lt_trichotomy k l with h | h | h
    · have := position_apart hk' h
      omega
    · exact h
    · have := position_apart hl' h
      omega

/-- Eight characters in a row hold at most four symbols of a codeword. -/
private theorem codeword_differences_run {s t : Bytes} {parity m i : ℕ} (hs : s.length = 48 + m)
    (ht : t.length = 48 + m)
    (hm : m ≤ 32) (hparity : parity ≤ 1) (hrun : ∀ k : ℕ, k < i ∨ i + 8 ≤ k → s[k]? = t[k]?) :
    differences (codeword parity s) (codeword parity t) ≤ 4 := by
  have hinside : ∀ k : ℕ, (codeword parity s)[k]? ≠ (codeword parity t)[k]? →
      i ≤ position parity m k ∧ position parity m k < i + 8 := by
    intro k hk
    have hdiff := (codeword_differs hs ht hm hparity hk).1
    constructor
    · by_contra hlt
      exact hdiff (hrun _ (.inl (Nat.lt_of_not_le hlt)))
    · by_contra hle
      exact hdiff (hrun _ (.inr (Nat.le_of_not_lt hle)))
  have hcard : differences (codeword parity s) (codeword parity t) ≤ (Finset.range 4).card := by
    refine Finset.card_le_card_of_injOn (fun k => (position parity m k - i) / 2) (fun k hk => ?_)
      (fun k hk l hl heq => ?_)
    · have hin := hinside k (Finset.mem_filter.1 hk).2
      refine Finset.mem_coe.2 (Finset.mem_range.2 ?_)
      show (position parity m k - i) / 2 < 4
      omega
    · have hk' := codeword_differs hs ht hm hparity (Finset.mem_filter.1 hk).2
      have hl' := codeword_differs hs ht hm hparity (Finset.mem_filter.1 hl).2
      have hin := hinside k (Finset.mem_filter.1 hk).2
      have hin' := hinside l (Finset.mem_filter.1 hl).2
      have heq' : (position parity m k - i) / 2 = (position parity m l - i) / 2 := heq
      rcases Nat.lt_trichotomy k l with h | h | h
      · have := position_apart hk'.2 h
        omega
      · exact h
      · have := position_apart hl'.2 h
        omega
  simpa using hcard

/-! ### Detection -/

/-- A string of the length of a secret that is not the secret is not verified if it differs in at most four symbols of
each codeword, and so if it differs in at most four characters or within eight characters in a row. -/
theorem verify_altered {n s t : Bytes} {p : Payload} (hn : isNamespaceString n = .ok true)
    (hs : constructNoisySecretTag n p.value = .ok s) (hlength : t.length = s.length) (hne : t ≠ s) :
    (differences (codeword 0 s) (codeword 0 t) ≤ 4 → differences (codeword 1 s) (codeword 1 t) ≤ 4 →
      verify t = .ok false) ∧
    (differences s t ≤ 4 → verify t = .ok false) ∧
    ∀ i : ℕ, (∀ k : ℕ, k < i ∨ i + 8 ≤ k → s[k]? = t[k]?) → verify t = .ok false := by
  have hnamespace := (isNamespaceString_iff n).1 hn
  have hcodewords : differences (codeword 0 s) (codeword 0 t) ≤ 4 → differences (codeword 1 s) (codeword 1 t) ≤ 4 →
      verify t = .ok false := by
    intro heven hodd
    obtain ⟨b, hb⟩ := (verify_eq t).1
    cases b with
    | false => exact hb
    | true =>
      obtain ⟨n', p', hn', ht⟩ := (verify_iff t).1 hb
      exact absurd (secret_eq hnamespace p.symbols p.length hs ((isNamespaceString_iff n').1 hn') p'.symbols p'.length ht
        hlength heven hodd) hne
  have hslength := (secret_ranges p.length hs).1
  have htlength : t.length = 48 + n.length := hlength.trans hslength
  have hm : n.length ≤ 32 := by rcases hnamespace.length with h | h <;> omega
  refine ⟨hcodewords, fun hfour => ?_, fun i hrun => ?_⟩
  · exact hcodewords ((codeword_differences_le hslength htlength hm (by omega)).trans hfour)
      ((codeword_differences_le hslength htlength hm (by omega)).trans hfour)
  · exact hcodewords (codeword_differences_run hslength htlength hm (by omega) hrun)
      (codeword_differences_run hslength htlength hm (by omega) hrun)

def samplePayload : Payload := ⟨base32Alphabet, base32Alphabet_length, fun _ hb => hb⟩

def sampleSecret : Bytes := ascii "secret_2_23456789abcdefghijkmnpqrstuvwxyz11izsa_3".toList

/-- Two symbols of the payload are swapped. -/
theorem verify_altered_swapped : verify (ascii "secret_2_23456789abcdefghijkmnpqrstuvwxzy11izsa_3".toList) = .ok false :=
  (verify_altered (n := [two]) (p := samplePayload) (s := sampleSecret) (by decide +kernel) (by decide +kernel)
    (by decide +kernel) (by decide +kernel)).2.1 (by decide +kernel)

end Noisy

end TrustedReleases
