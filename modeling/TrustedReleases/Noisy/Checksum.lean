import TrustedReleases.Lib.ReedSolomon
import TrustedReleases.Noisy.Secret

/-!
# The checksum is a Reed-Solomon code

The registers of `checksum_compute` hold the remainder of the message, shifted by four places, modulo a polynomial
with the roots 19, 19², 19³ and 19⁴ over the field of order 37.  So a message followed by its checksum vanishes at
these four points, and two such codewords of 36 symbols that differ in at most four of them are of one message
(`message_eq_of_differences`).
-/

namespace TrustedReleases

open Lib

namespace Noisy

instance fact_prime : Fact (Nat.Prime 37) := ⟨by norm_num⟩

/-! ### Symbols -/

/-- The field element of a symbol. -/
def fieldSymbol (b : Byte) : ZMod 37 := (base37Alphabet.idxOf b : ℕ)

private theorem base37Alphabet_length : base37Alphabet.length = 37 := by decide

private theorem fieldMap_of_mem {b : Byte} (h : b ∈ base37Alphabet) :
    fieldMap b = .ok (base37Alphabet.idxOf b : ℕ) := by
  revert b
  decide +kernel

private theorem fieldSymbol_inj {b b' : Byte} (h : b ∈ base37Alphabet) (h' : b' ∈ base37Alphabet)
    (heq : fieldSymbol b = fieldSymbol b') : b = b' := by
  have hlt : base37Alphabet.idxOf b < 37 := List.idxOf_lt_length_iff.2 h
  have hlt' : base37Alphabet.idxOf b' < 37 := List.idxOf_lt_length_iff.2 h'
  have hidx : base37Alphabet.idxOf b = base37Alphabet.idxOf b' := by
    have hval := congrArg ZMod.val heq
    rwa [fieldSymbol, fieldSymbol, ZMod.val_cast_of_lt hlt, ZMod.val_cast_of_lt hlt'] at hval
  exact (List.idxOf_inj h).1 hidx

private theorem symbolOf_mem (n : Int) : symbolOf n ∈ base37Alphabet := by
  have hlt : (n % q).toNat < base37Alphabet.length := by
    rw [base37Alphabet_length]
    unfold q
    omega
  rw [symbolOf, List.getD_eq_getElem _ _ hlt]
  exact List.getElem_mem hlt

private theorem fieldSymbol_symbolOf (n : Int) : fieldSymbol (symbolOf n) = (n : ZMod 37) := by
  have hall : ∀ i < 37, base37Alphabet.idxOf (base37Alphabet.getD i pad) = i := by decide
  have hlt : (n % q).toNat < 37 := by
    unfold q
    omega
  have hcast : ((n % q).toNat : Int) = n % q := by
    unfold q
    omega
  have hmod : ((n % q : Int) : ZMod 37) = (n : ZMod 37) := ZMod.intCast_mod n 37
  rw [fieldSymbol, symbolOf, hall _ hlt, ← hmod, ← hcast, Int.cast_natCast, hcast]

/-! ### Registers -/

/-- The registers as a polynomial. -/
def Registers.value (r : Registers) (ρ : ZMod 37) : ZMod 37 :=
  (r.r0 : ZMod 37) * ρ ^ 3 + (r.r1 : ZMod 37) * ρ ^ 2 + (r.r2 : ZMod 37) * ρ + (r.r3 : ZMod 37)

/-- The generator of the code vanishes at the point. -/
def IsRoot (ρ : ZMod 37) : Prop := ρ ^ 4 + 6 * ρ ^ 3 + 26 * ρ ^ 2 + 21 * ρ + 3 = 0

private theorem isRoot_pow : ∀ j < 4, IsRoot (19 ^ (1 + j)) := by
  unfold IsRoot
  decide

private theorem feed_value (r : Registers) (symbol : Int) {ρ : ZMod 37} (hρ : IsRoot ρ) :
    (r.feed symbol).value ρ = r.value ρ * ρ + (symbol : ZMod 37) * ρ ^ 4 := by
  have hmod : ∀ n : Int, ((n % q : Int) : ZMod 37) = (n : ZMod 37) := fun n => ZMod.intCast_mod n 37
  have hgen : ρ ^ 4 = -(6 * ρ ^ 3 + 26 * ρ ^ 2 + 21 * ρ + 3) := by
    unfold IsRoot at hρ
    linear_combination hρ
  simp only [Registers.value, Registers.feed, hmod]
  push_cast
  simp only [hmod]
  push_cast
  have hpow : ρ ^ 3 * ρ = ρ ^ 4 := by ring
  linear_combination (-(r.r0 : ZMod 37) - (symbol : ZMod 37)) * hgen

private theorem foldl_feed_value (symbols : List Int) {ρ : ZMod 37} (hρ : IsRoot ρ) :
    (symbols.foldl Registers.feed ⟨0, 0, 0, 0⟩).value ρ =
      horner ρ (symbols.map (Int.cast : Int → ZMod 37)) * ρ ^ 4 := by
  induction symbols using List.reverseRecOn with
  | nil => simp [Registers.value, horner]
  | append_singleton symbols symbol ih =>
    rw [List.foldl_append, List.foldl_cons, List.foldl_nil, feed_value _ _ hρ, ih, List.map_append, List.map_singleton,
      horner_append]
    ring

/-! ### Codewords -/

/-- The message is over the alphabet of the field. -/
def InField (message : Bytes) : Prop := ∀ b ∈ message, b ∈ base37Alphabet

private theorem mapM_fieldMap {message : Bytes} (h : InField message) :
    message.mapM fieldMap = .ok (message.map fun b => ((base37Alphabet.idxOf b : ℕ) : Int)) := by
  refine mapM_eq_ok.2 ?_
  rw [List.forall₂_map_right_iff, List.forall₂_same]
  exact fun b hb => fieldMap_of_mem (h b hb)

theorem checksumCompute_inField {message : Bytes} (h : InField message) :
    ∃ checksum, checksumCompute message = .ok checksum ∧ checksum.length = 4 ∧ InField checksum ∧
      ∀ ρ, IsRoot ρ → horner ρ ((message ++ checksum).map fieldSymbol) = 0 := by
  unfold checksumCompute
  rw [mapM_fieldMap h]
  refine ⟨_, rfl, rfl, ?_, fun ρ hρ => ?_⟩
  · intro b hb
    simp only [List.mem_cons, List.not_mem_nil, or_false] at hb
    rcases hb with rfl | rfl | rfl | rfl <;> exact symbolOf_mem _
  · have hvalue := foldl_feed_value (message.map fun b => ((base37Alphabet.idxOf b : ℕ) : Int)) hρ
    have hsymbols : (message.map fun b => ((base37Alphabet.idxOf b : ℕ) : Int)).map (Int.cast : Int → ZMod 37) =
        message.map fieldSymbol := by
      rw [List.map_map]
      exact List.map_congr_left fun b _ => by simp [fieldSymbol]
    rw [hsymbols] at hvalue
    generalize (message.map fun b => ((base37Alphabet.idxOf b : ℕ) : Int)).foldl Registers.feed ⟨0, 0, 0, 0⟩ = r
      at hvalue ⊢
    have hsplit : (message ++ [symbolOf (-r.r0), symbolOf (-r.r1), symbolOf (-r.r2), symbolOf (-r.r3)]).map fieldSymbol =
        message.map fieldSymbol ++ [-(r.r0 : ZMod 37)] ++ [-(r.r1 : ZMod 37)] ++ [-(r.r2 : ZMod 37)] ++
          [-(r.r3 : ZMod 37)] := by
      simp [fieldSymbol_symbolOf]
    rw [hsplit, horner_append, horner_append, horner_append, horner_append]
    unfold Registers.value at hvalue
    linear_combination -hvalue

private theorem pow_inj : ∀ i < 36, ∀ j < 36, (19 : ZMod 37) ^ i = 19 ^ j → i = j := by
  decide +kernel

/-- Two messages whose codewords differ in at most four symbols are the same. -/
theorem message_eq_of_differences {m m' c c' : Bytes} (hm : InField m) (hm' : InField m') (hlength : m.length = 32)
    (hlength' : m'.length = 32) (hc : checksumCompute m = .ok c) (hc' : checksumCompute m' = .ok c')
    (hd : differences (m ++ c) (m' ++ c') ≤ 4) : m = m' := by
  obtain ⟨_, heq, hc4, hcf, hroot⟩ := checksumCompute_inField hm
  obtain rfl := Except.ok.inj (hc.symm.trans heq)
  obtain ⟨_, heq', hc4', hcf', hroot'⟩ := checksumCompute_inField hm'
  obtain rfl := Except.ok.inj (hc'.symm.trans heq')
  have hword : (m ++ c).length = 36 := by rw [List.length_append, hlength, hc4]
  have hword' : (m' ++ c').length = 36 := by rw [List.length_append, hlength', hc4']
  have hsymbols : (m ++ c).map fieldSymbol = (m' ++ c').map fieldSymbol := by
    refine eq_of_horner (α := 19) (b := 1) (d := 4) ?_ ?_ (by decide) ?_ ?_
    · rw [List.length_map, List.length_map, hword, hword']
    · rw [List.length_map, hword]
      exact pow_inj
    · intro j hj
      rw [hroot _ (isRoot_pow j hj), hroot' _ (isRoot_pow j hj)]
    · refine le_trans (differences_congr ?_ ?_ fun k hk => ?_) hd
      · rw [List.length_map]
      · rw [List.length_map]
      · rw [List.getElem?_map, List.getElem?_map, hk]
  have hfield : InField (m ++ c) := by
    intro b hb
    rcases List.mem_append.1 hb with hb | hb
    · exact hm b hb
    · exact hcf b hb
  have hfield' : InField (m' ++ c') := by
    intro b hb
    rcases List.mem_append.1 hb with hb | hb
    · exact hm' b hb
    · exact hcf' b hb
  have hwords : m ++ c = m' ++ c' := by
    refine List.ext_getElem (hword.trans hword'.symm) fun k hk hk' => ?_
    refine fieldSymbol_inj (hfield _ (List.getElem_mem hk)) (hfield' _ (List.getElem_mem hk')) ?_
    have hat : ((m ++ c).map fieldSymbol)[k]? = ((m' ++ c').map fieldSymbol)[k]? := by rw [hsymbols]
    rw [List.getElem?_map, List.getElem?_map, List.getElem?_eq_getElem hk, List.getElem?_eq_getElem hk'] at hat
    exact Option.some.inj hat
  exact (List.append_inj hwords (by rw [hlength, hlength'])).1

end Noisy

end TrustedReleases
