import TrustedReleases.Noisy.Grammar

/-!
# Namespaces of domains

A domain that `construct_namespace` accepts has components that neither begin nor end with a hyphen.  Between two
components there is one underscore with a letter or a digit on either side, and a hyphen is a pair of underscores, so
that the domain can be read back (`constructNamespaceDomain_eq`).
-/

namespace TrustedReleases

open Lib

namespace Noisy

/-! ### Components -/

/-- A component that passes the checks. -/
structure IsComponent (component : Bytes) : Prop where
  symbols : ∀ b ∈ component, b ∈ componentAlphabet
  head : component.head? ≠ some hyphen
  last : component.getLast? ≠ some hyphen
  nonempty : component ≠ []

private theorem checkComponent_eq_ok {component : Bytes} :
    checkComponent component = .ok () ↔ IsComponent component := by
  unfold checkComponent
  rw [raiseIf_bind_eq_ok, raiseIf_bind_eq_ok, raiseIf_eq_ok]
  simp only [isComponentString, decide_eq_false_iff_not, not_not, not_or]
  constructor
  · rintro ⟨hsymbols, ⟨hhead, hlast⟩, hne⟩
    exact ⟨hsymbols, hhead, hlast, hne⟩
  · rintro ⟨hsymbols, hhead, hlast, hne⟩
    exact ⟨hsymbols, ⟨hhead, hlast⟩, hne⟩

private theorem component_cases : ∀ b ∈ componentAlphabet, b = hyphen ∨ b ∈ base36Alphabet := by decide +kernel

private theorem underscore_not_component : underscore ∉ componentAlphabet := by decide

private theorem underscore_not_base36 : underscore ∉ base36Alphabet := by decide

/-! ### Words -/

/-- A string of symbols that begins and ends with a letter or a digit. -/
structure IsWord (w : Bytes) : Prop where
  head : ∃ b ∈ base36Alphabet, w.head? = some b
  last : ∃ b ∈ base36Alphabet, w.getLast? = some b
  symbols : InField w

theorem IsWord.join {w w' : Bytes} (hw : IsWord w) (hw' : IsWord w') : IsWord (w ++ [underscore] ++ w') where
  head := by
    obtain ⟨b, hb, hhead⟩ := hw.head
    exact ⟨b, hb, by simp [List.head?_append, hhead]⟩
  last := by
    obtain ⟨b, hb, hlast⟩ := hw'.last
    exact ⟨b, hb, by rw [List.getLast?_append, hlast, Option.some_or]⟩
  symbols := by
    intro b hb
    simp only [List.mem_append, List.mem_singleton] at hb
    rcases hb with (hb | rfl) | hb
    · exact hw.symbols b hb
    · exact pad_mem
    · exact hw'.symbols b hb

theorem IsWord.intercalate {ws : List Bytes} (h : ∀ w ∈ ws, IsWord w) (hne : ws ≠ []) :
    IsWord ([underscore].intercalate ws) := by
  induction ws with
  | nil => exact absurd rfl hne
  | cons w ws ih =>
    by_cases hws : ws = []
    · subst hws
      simpa using h w List.mem_cons_self
    · rw [List.intercalate_cons_of_ne_nil hws]
      exact (h w List.mem_cons_self).join (ih (fun x hx => h x (List.mem_cons_of_mem _ hx)) hws)

private theorem mem_replaceHyphens {component : Bytes} (h : ∀ b ∈ component, b ∈ componentAlphabet) :
    InField (replaceHyphens component) := by
  intro b hb
  obtain ⟨a, ha, hb⟩ := List.mem_flatMap.1 hb
  split at hb
  · rw [List.mem_pair, or_self] at hb
    rw [hb]
    exact pad_mem
  · rename_i hhyphen
    rw [List.mem_singleton] at hb
    rcases component_cases a (h a ha) with heq | hmem
    · exact absurd heq hhyphen
    · rw [hb]
      exact base36_subset a hmem

theorem IsComponent.word {component : Bytes} (h : IsComponent component) : IsWord (replaceHyphens component) where
  head := by
    obtain ⟨b, rest, rfl⟩ := List.exists_cons_of_ne_nil h.nonempty
    have hb : b ≠ hyphen := fun heq => h.head (by rw [heq]; rfl)
    refine ⟨b, (component_cases b (h.symbols b List.mem_cons_self)).resolve_left hb, ?_⟩
    simp [replaceHyphens, hb]
  last := by
    obtain ⟨start, b, rfl⟩ : ∃ start b, component = start ++ [b] :=
      ⟨_, _, (List.dropLast_append_getLast h.nonempty).symm⟩
    have hb : b ≠ hyphen := fun heq => h.last (by simp [heq])
    refine ⟨b, (component_cases b (h.symbols b (by simp))).resolve_left hb, ?_⟩
    simp [replaceHyphens, hb]
  symbols := mem_replaceHyphens h.symbols

/-! ### Reading back -/

private theorem replacePairs_cons {b : Byte} (hb : b ≠ underscore) (s : Bytes) :
    replacePairs (b :: s) = b :: replacePairs s := by
  cases s with
  | nil => rfl
  | cons b' s => rw [replacePairs, if_neg fun h => hb h.1]

private theorem replacePairs_single {b : Byte} (hb : b ≠ underscore) (s : Bytes) :
    replacePairs (underscore :: b :: s) = underscore :: replacePairs (b :: s) := by
  rw [replacePairs, if_neg fun h => hb h.2]

/-- The pairs of underscores of a component become its hyphens. -/
private theorem replacePairs_replaceHyphens {component : Bytes} (h : underscore ∉ component) (s : Bytes) :
    replacePairs (replaceHyphens component ++ s) = component ++ replacePairs s := by
  induction component with
  | nil => rfl
  | cons b component ih =>
    rw [List.mem_cons, not_or] at h
    have hrest := ih h.2
    by_cases hb : b = hyphen
    · have hcons : replaceHyphens (b :: component) ++ s =
          underscore :: underscore :: (replaceHyphens component ++ s) := by
        simp [replaceHyphens, hb]
      rw [hcons, replacePairs, if_pos ⟨rfl, rfl⟩, hrest, hb]
      rfl
    · have hcons : replaceHyphens (b :: component) ++ s = b :: (replaceHyphens component ++ s) := by
        simp [replaceHyphens, hb]
      rw [hcons, replacePairs_cons (Ne.symm h.1), hrest]
      rfl

private theorem replacePairs_intercalate {components : List Bytes} (h : ∀ c ∈ components, IsComponent c) :
    replacePairs ([underscore].intercalate (components.map replaceHyphens)) = [underscore].intercalate components := by
  have hfree : ∀ {c}, IsComponent c → underscore ∉ c := fun hc hmem => underscore_not_component (hc.symbols _ hmem)
  induction components with
  | nil => rfl
  | cons c components ih =>
    have hc := h c List.mem_cons_self
    have hrest := ih fun x hx => h x (List.mem_cons_of_mem _ hx)
    by_cases hnil : components = []
    · subst hnil
      have hone := replacePairs_replaceHyphens (hfree hc) []
      simpa [replacePairs] using hone
    · have hmap : components.map replaceHyphens ≠ [] := by simpa using hnil
      have hword : IsWord ([underscore].intercalate (components.map replaceHyphens)) := by
        refine IsWord.intercalate (fun w hw => ?_) hmap
        obtain ⟨x, hx, rfl⟩ := List.mem_map.1 hw
        exact (h x (List.mem_cons_of_mem _ hx)).word
      -- the underscore before the next component is not the first of a pair
      obtain ⟨b, hb, hhead⟩ := hword.head
      obtain ⟨rest, hjoined⟩ : ∃ rest, [underscore].intercalate (components.map replaceHyphens) = b :: rest :=
        List.head?_eq_some_iff.1 hhead
      have hne : b ≠ underscore := by
        rintro rfl
        exact underscore_not_base36 hb
      rw [List.map_cons, List.intercalate_cons_of_ne_nil hmap, List.append_assoc,
        replacePairs_replaceHyphens (hfree hc), hjoined, List.singleton_append, replacePairs_single hne, ← hjoined,
        hrest, List.intercalate_cons_of_ne_nil hnil]
      simp

/-! ### The namespace of a domain -/

private theorem idxOf?_symbol : ∀ i < 32, base32Alphabet[i]?.bind base32Alphabet.idxOf? = some i := by decide +kernel

/-- What `construct_namespace` accepts, and what it makes of it. -/
private theorem constructDomainNamespace_ok {fqdn n : Bytes} (h : constructDomainNamespace fqdn = .ok n) :
    ∃ length joined, joined = [underscore].intercalate ((fqdn.splitOn dot).reverse.map replaceHyphens) ∧
      n = length :: underscore :: joined ∧ base32Alphabet.idxOf? length = some (joined.length + 1) ∧
      ∀ c ∈ fqdn.splitOn dot, IsComponent c := by
  obtain ⟨_, hcheck, h⟩ := bind_eq_ok h
  rw [raiseIf_bind_eq_ok, demand_bind_eq_ok] at h
  obtain ⟨hshort, length, hlength, h⟩ := h
  refine ⟨length, _, rfl, (Except.ok.inj h).symm, ?_, ?_⟩
  · have hlt : ([underscore].intercalate ((fqdn.splitOn dot).reverse.map replaceHyphens)).length + 1 < 32 := by
      omega
    have hidx := idxOf?_symbol _ hlt
    rw [hlength] at hidx
    exact hidx
  · intro c hc
    exact checkComponent_eq_ok.1 (forM_eq_ok.1 hcheck c hc)

private theorem joined_word {fqdn : Bytes} (h : ∀ c ∈ fqdn.splitOn dot, IsComponent c) :
    IsWord ([underscore].intercalate ((fqdn.splitOn dot).reverse.map replaceHyphens)) := by
  refine IsWord.intercalate (fun w hw => ?_) (by simp)
  obtain ⟨c, hc, rfl⟩ := List.mem_map.1 hw
  exact (h c (List.mem_reverse.1 hc)).word

/-- The namespace of a domain is a namespace string. -/
private theorem constructNamespace_isNamespace {fqdn : Option Bytes} {n : Bytes} (h : constructNamespace fqdn = .ok n) :
    IsNamespace n := by
  cases fqdn with
  | none =>
    obtain rfl := Except.ok.inj h
    exact .inl rfl
  | some fqdn =>
    obtain ⟨length, joined, hjoined, rfl, hlength, hcomponents⟩ := constructDomainNamespace_ok h
    have hword := joined_word hcomponents
    rw [← hjoined] at hword
    obtain ⟨first, hfirst, hhead⟩ := hword.head
    obtain ⟨rest, rfl⟩ : ∃ rest, joined = first :: rest := List.head?_eq_some_iff.1 hhead
    obtain ⟨last, hlast, hgetLast⟩ := hword.last
    refine .inr ⟨length, first, rest, rfl, hlength, hfirst, ?_, fun b hb => ?_⟩
    · rw [List.getLast?_cons] at hgetLast
      rw [List.getLastD_eq_getLast?, Option.some.inj hgetLast]
      exact hlast
    · exact hword.symbols b (List.mem_cons_of_mem _ (List.dropLast_subset rest hb))

/-- The domain is read back from its namespace. -/
private theorem constructNamespaceDomain_eq {fqdn : Option Bytes} {n : Bytes} (h : constructNamespace fqdn = .ok n) :
    constructNamespaceDomain n = fqdn := by
  cases fqdn with
  | none =>
    obtain rfl := Except.ok.inj h
    rfl
  | some fqdn =>
    obtain ⟨length, joined, rfl, rfl, hlength, hcomponents⟩ := constructDomainNamespace_ok h
    have hreverse : ∀ c ∈ (fqdn.splitOn dot).reverse, IsComponent c :=
      fun c hc => hcomponents c (List.mem_reverse.1 hc)
    have hsplit : (([underscore].intercalate (fqdn.splitOn dot).reverse).splitOn pad) = (fqdn.splitOn dot).reverse := by
      refine List.splitOn_intercalate pad (fun c hc hmem => ?_) (by simp)
      exact underscore_not_component ((hreverse c hc).symbols _ hmem)
    unfold constructNamespaceDomain
    rw [if_neg (by simp), List.drop_succ_cons, List.drop_succ_cons, List.drop_zero, replacePairs_intercalate hreverse,
      hsplit, List.reverse_reverse, List.intercalate_splitOn]

/-- The grammar of the verified strings: they are the secrets, each of one namespace and one payload; those of accepted
domains are among them, and the domain can be read back. -/
theorem verify_grammar :
    (∀ x, verify x = .ok true ↔ ∃ n, ∃ p : Payload,
      isNamespaceString n = .ok true ∧ constructNoisySecretTag n p.value = .ok x) ∧
    (∀ x n n', ∀ p p' : Payload, constructNoisySecretTag n p.value = .ok x →
      constructNoisySecretTag n' p'.value = .ok x → n = n' ∧ p = p') ∧
    (∀ fqdn n, ∀ p : Payload, constructNamespace fqdn = .ok n →
      ∃ x, constructNoisySecret fqdn p = .ok x ∧ verify x = .ok true) ∧
    ∀ fqdn n, constructNamespace fqdn = .ok n → constructNamespaceDomain n = fqdn := by
  refine ⟨verify_iff, fun x n n' p p' h h' => ?_, fun fqdn n p h => ?_, fun fqdn n h => ?_⟩
  · obtain ⟨-, hn, hp⟩ := secret_ranges p.length h
    obtain ⟨-, hn', hp'⟩ := secret_ranges p'.length h'
    exact ⟨hn.symm.trans hn', Payload.ext (hp.symm.trans hp')⟩
  · have hn := constructNamespace_isNamespace h
    obtain ⟨x, hx⟩ := constructNoisySecretTag_total hn p.length p.symbols
    have hsecret : constructNoisySecret fqdn p = .ok x := by
      rw [constructNoisySecret, h, ok_bind, hx]
    exact ⟨x, hsecret, (verify_iff x).2 ⟨n, p, (isNamespaceString_iff n).2 hn, hx⟩⟩
  · exact constructNamespaceDomain_eq h

theorem verify_grammar_domain :
    constructNamespaceDomain (ascii "f_org_my__site".toList) = some (ascii "my-site.org".toList) :=
  verify_grammar.2.2.2 _ _ (by decide +kernel)

end Noisy

end TrustedReleases
