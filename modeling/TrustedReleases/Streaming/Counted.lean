import TrustedReleases.Lib.Distinct
import TrustedReleases.Lib.Settles
import TrustedReleases.Streaming.Listed

/-!
# The tally of components

What is recorded after components have been taken one after the other (`tallyOf`), and that recording one more leads to
the tally with that one at the end, within the limits (`record_settles`).
-/

namespace TrustedReleases

open Lib JsonTree

namespace Streaming

variable {δ : Type} {parse : Str → Option PackageUrl} {cs : List (JsonTree (Scalar δ))} {c : JsonTree (Scalar δ)}
  {key : Option Str × Str × Option Str}

/-- The errors of a document that is rejected. -/
def Error.Rejects : Error → Prop
  | .malformed _ _ | .unsupported _ _ => True
  | _ => False

/-! ### Licenses of one identity -/

private theorem licensesOf_concat : licensesOf parse (cs ++ [c]) key =
    if isLicensed c = true ∧ identityOf parse c = key then
      licensesOf parse cs key ++ (declarationsOf c).filter (· ∉ licensesOf parse cs key)
    else licensesOf parse cs key := by
  unfold licensesOf
  rw [List.filter_append, List.flatMap_append]
  by_cases h : isLicensed c = true ∧ identityOf parse c = key
  · have hone : [c].filter (fun c => isLicensed c && decide (identityOf parse c = key)) = [c] := by simp [h]
    have hnodup : ([c].flatMap declarationsOf).Nodup := by
      rw [List.flatMap_singleton]
      exact eraseDups_nodup _
    rw [if_pos h, hone, eraseDups_append_of_nodup hnodup, List.flatMap_singleton]
  · have hnone : [c].filter (fun c => isLicensed c && decide (identityOf parse c = key)) = [] := by
      simpa using h
    rw [if_neg h, hnone, List.flatMap_nil, List.append_nil]

private theorem licensesOf_of_notMem (h : key ∉ identitiesOf parse cs) : licensesOf parse cs key = [] := by
  have hnone : cs.filter (fun c => isLicensed c && decide (identityOf parse c = key)) = [] := by
    apply List.filter_eq_nil_iff.2
    intro c hc hboth
    rw [Bool.and_eq_true, decide_eq_true_iff] at hboth
    refine h (List.mem_eraseDups.2 (List.mem_map.2 ⟨c, List.mem_filter.2 ⟨hc, hboth.1⟩, hboth.2⟩))
  unfold licensesOf
  rw [hnone]
  rfl

private theorem identitiesOf_concat : identitiesOf parse (cs ++ [c]) =
    if isLicensed c = true ∧ identityOf parse c ∉ identitiesOf parse cs then
      identitiesOf parse cs ++ [identityOf parse c]
    else identitiesOf parse cs := by
  unfold identitiesOf
  by_cases hlicensed : isLicensed c = true
  · rw [List.filter_append, List.filter_cons_of_pos hlicensed, List.filter_nil, List.map_append, List.map_singleton]
    by_cases hmem : identityOf parse c ∈ (cs.filter isLicensed).map (identityOf parse)
    · rw [eraseDups_concat_of_mem hmem, if_neg fun h => h.2 (List.mem_eraseDups.2 hmem)]
    · rw [eraseDups_concat_of_notMem hmem, if_pos ⟨hlicensed, fun h => hmem (List.mem_eraseDups.1 h)⟩]
  · rw [List.filter_append, List.filter_cons_of_neg hlicensed, List.filter_nil, List.append_nil,
      if_neg fun h => hlicensed h.1]

private theorem identitiesOf_nodup : (identitiesOf parse cs).Nodup := eraseDups_nodup _

/-! ### Tallies -/

section

variable (parse)

def licensedComponent (cs : List (JsonTree (Scalar δ))) (key : Option Str × Str × Option Str) : LicensedComponent :=
  ⟨key.2.1, key.2.2, key.1, licensesOf parse cs key⟩

/-- What is recorded of components, taken one after the other. -/
def tallyOf (cs : List (JsonTree (Scalar δ))) : Tally where
  components := cs.length
  files := cs.countP isFile
  unidentified := cs.countP fun c => !isFile c && (purlOf parse c).isNone
  purls := (cs.filterMap (identified parse)).foldl (fun set purl => set.insert purl) []
  licensed := ⟨(identitiesOf parse cs).map fun key => (key, licensedComponent parse cs key), by
    rw [List.map_map]
    exact (List.map_id (identitiesOf parse cs)).symm ▸ identitiesOf_nodup⟩
  licenses := ((identitiesOf parse cs).map fun key => (licensesOf parse cs key).length).sum

end

private theorem get_licensed (cs : List (JsonTree (Scalar δ))) (key : Option Str × Str × Option Str) :
    (tallyOf parse cs).licensed.get key =
      if key ∈ identitiesOf parse cs then some (licensedComponent parse cs key) else none := by
  by_cases h : key ∈ identitiesOf parse cs
  · rw [if_pos h]
    exact OrdDict.get_eq_some.2 (List.mem_map_of_mem h)
  · rw [if_neg h]
    apply OrdDict.get_eq_none.2
    intro hmem
    obtain ⟨e, he, rfl⟩ := List.mem_map.1 hmem
    obtain ⟨key, hkey, rfl⟩ := List.mem_map.1 he
    exact h hkey

/-- What has been retained under an identity, or else nothing yet. -/
private theorem retained_eq (cs : List (JsonTree (Scalar δ))) (purl : Option Str) (name : Str) (version : Option Str) :
    ((tallyOf parse cs).licensed.get (purl, name, version)).getD ⟨name, version, purl, []⟩ =
      licensedComponent parse cs (purl, name, version) := by
  rw [get_licensed]
  by_cases h : (purl, name, version) ∈ identitiesOf parse cs
  · rw [if_pos h]
    rfl
  · rw [if_neg h, licensedComponent, licensesOf_of_notMem h]
    rfl

private theorem licensedComponent_of_ne (h : ¬ (isLicensed c = true ∧ identityOf parse c = key)) :
    licensedComponent parse (cs ++ [c]) key = licensedComponent parse cs key := by
  unfold licensedComponent
  rw [licensesOf_concat, if_neg h]

/-- What is retained of one more component. -/
private theorem set_licensed (h : isLicensed c = true) :
    (tallyOf parse cs).licensed.set (identityOf parse c) (licensedComponent parse (cs ++ [c]) (identityOf parse c)) =
      (tallyOf parse (cs ++ [c])).licensed := by
  have hkeys : (tallyOf parse cs).licensed.entries.map Prod.fst = identitiesOf parse cs := by
    unfold tallyOf
    dsimp only
    rw [List.map_map]
    exact List.map_id _
  have hothers : ∀ key, key ≠ identityOf parse c →
      licensedComponent parse (cs ++ [c]) key = licensedComponent parse cs key :=
    fun key hne => licensedComponent_of_ne fun hboth => hne hboth.2.symm
  unfold OrdDict.set
  split
  · rename_i hmem
    rw [hkeys] at hmem
    unfold tallyOf
    congr 1
    dsimp only
    rw [identitiesOf_concat, if_neg fun hboth => hboth.2 hmem, List.map_map]
    apply List.map_congr_left
    intro key hkey
    rw [Function.comp_apply]
    by_cases heq : key = identityOf parse c
    · rw [if_pos heq, heq]
    · rw [if_neg heq, hothers key heq]
  · rename_i hnot
    rw [hkeys] at hnot
    unfold tallyOf
    congr 1
    dsimp only
    rw [identitiesOf_concat, if_pos ⟨h, hnot⟩, List.map_append, List.map_singleton]
    congr 1
    apply List.map_congr_left
    intro key hkey
    rw [hothers key fun heq => hnot (heq ▸ hkey)]

private theorem sum_map_update {α : Type} {f f' : α → Nat} {l : List α} {a : α} {n : Nat} (hnodup : l.Nodup)
    (hmem : a ∈ l)
    (hothers : ∀ b, b ≠ a → f' b = f b) (ha : f' a = f a + n) : (l.map f').sum = (l.map f).sum + n := by
  induction l with
  | nil => cases hmem
  | cons b l ih =>
    obtain ⟨hb, hnodup⟩ := List.nodup_cons.1 hnodup
    rw [List.map_cons, List.map_cons, List.sum_cons, List.sum_cons]
    rcases List.mem_cons.1 hmem with rfl | hin
    · have hrest : l.map f' = l.map f := by
        apply List.map_congr_left
        intro b hbl
        exact hothers b fun heq => hb (heq ▸ hbl)
      rw [hrest, ha]
      omega
    · have hne : b ≠ a := fun heq => hb (heq ▸ hin)
      rw [ih hnodup hin, hothers b hne]
      omega

/-- The number of licenses that are retained with one more component. -/
private theorem licenses_concat (h : isLicensed c = true) : (tallyOf parse (cs ++ [c])).licenses =
    (tallyOf parse cs).licenses +
      ((declarationsOf c).filter (· ∉ licensesOf parse cs (identityOf parse c))).length := by
  have hothers : ∀ key, key ≠ identityOf parse c →
      (licensesOf parse (cs ++ [c]) key).length = (licensesOf parse cs key).length := by
    intro key hne
    rw [licensesOf_concat, if_neg fun hboth => hne hboth.2.symm]
  have hkey : (licensesOf parse (cs ++ [c]) (identityOf parse c)).length =
      (licensesOf parse cs (identityOf parse c)).length +
        ((declarationsOf c).filter (· ∉ licensesOf parse cs (identityOf parse c))).length := by
    rw [licensesOf_concat, if_pos ⟨h, rfl⟩, List.length_append]
  unfold tallyOf
  dsimp only
  rw [identitiesOf_concat]
  by_cases hmem : identityOf parse c ∈ identitiesOf parse cs
  · rw [if_neg fun hboth => hboth.2 hmem]
    exact sum_map_update identitiesOf_nodup hmem hothers hkey
  · have hsame : (identitiesOf parse cs).map (fun key => (licensesOf parse (cs ++ [c]) key).length) =
        (identitiesOf parse cs).map fun key => (licensesOf parse cs key).length := by
      apply List.map_congr_left
      intro key hin
      exact hothers key fun heq => hmem (heq ▸ hin)
    rw [if_pos ⟨h, hmem⟩, List.map_append, List.sum_append, hsame, List.map_singleton, List.sum_singleton, hkey,
      licensesOf_of_notMem hmem, List.length_nil, Nat.zero_add]

/-- A component without licenses leaves what is retained. -/
private theorem retained_of_not_licensed (h : isLicensed c = false) :
    (tallyOf parse (cs ++ [c])).licensed = (tallyOf parse cs).licensed ∧
      (tallyOf parse (cs ++ [c])).licenses = (tallyOf parse cs).licenses := by
  have hnot : ¬ isLicensed c = true := by simp [h]
  have hidentities : identitiesOf parse (cs ++ [c]) = identitiesOf parse cs := by
    rw [identitiesOf_concat, if_neg fun hboth => hnot hboth.1]
  have hlicenses : licensesOf parse (cs ++ [c]) = licensesOf parse cs := by
    funext key
    rw [licensesOf_concat, if_neg fun hboth => hnot hboth.1]
  have hcomponents : licensedComponent parse (cs ++ [c]) = licensedComponent parse cs := by
    funext key
    exact licensedComponent_of_ne fun hboth => hnot hboth.1
  unfold tallyOf
  simp only [hidentities, hlicenses, hcomponents, and_self]

/-- What is recorded is the inventory. -/
theorem inventoryOf_eq (cs : List (JsonTree (Scalar δ))) : inventoryOf parse cs = ⟨(tallyOf parse cs).components,
    (tallyOf parse cs).files, (tallyOf parse cs).unidentified, sorted (tallyOf parse cs).purls,
    (tallyOf parse cs).licensed.values⟩ := by
  have hpurls : sorted (tallyOf parse cs).purls = sorted (cs.filterMap (identified parse)).eraseDups :=
    sorted_congr (foldl_insert_perm _)
  have hvalues : (tallyOf parse cs).licensed.values = (identitiesOf parse cs).map (licensedComponent parse cs) := by
    unfold OrdDict.values tallyOf
    dsimp only
    rw [List.map_map]
    rfl
  rw [hpurls, hvalues]
  rfl

/-! ### Limits -/

private theorem identitiesOf_append (cs cs' : List (JsonTree (Scalar δ))) :
    ∃ keys, identitiesOf parse (cs ++ cs') = identitiesOf parse cs ++ keys := by
  unfold identitiesOf
  rw [List.filter_append, List.map_append, List.eraseDups_append]
  exact ⟨_, rfl⟩

private theorem licensesOf_length_le (cs cs' : List (JsonTree (Scalar δ))) (key : Option Str × Str × Option Str) :
    (licensesOf parse cs key).length ≤ (licensesOf parse (cs ++ cs') key).length := by
  unfold licensesOf
  rw [List.filter_append, List.flatMap_append]
  exact eraseDups_length_le_append _ _

/-- The first of some components are within the limits that all of them are within. -/
theorem Within.of_append {cs' : List (JsonTree (Scalar δ))} (h : Within parse (cs ++ cs')) : Within parse cs := by
  obtain ⟨keys, hkeys⟩ := @identitiesOf_append δ parse cs cs'
  have hmem : ∀ c ∈ cs, c ∈ cs ++ cs' := fun c hc => List.mem_append_left _ hc
  refine ⟨?_, fun c hc => h.choices c (hmem c hc), fun c hc => h.declarations c (hmem c hc),
    fun c hc => h.names c (hmem c hc), ?_, ?_, ?_, ?_⟩
  · have hcount := h.components
    rw [List.length_append] at hcount
    omega
  · intro purl hpurl
    apply h.purls purl
    rw [List.filterMap_append]
    exact List.mem_append_left _ hpurl
  · have hcount := h.identities
    rw [List.filterMap_append] at hcount
    exact (eraseDups_length_le_append _ _).trans hcount
  · have hcount := h.licensed
    rw [hkeys, List.length_append] at hcount
    omega
  · have hcount := h.licenses
    have hle : ((identitiesOf parse cs).map fun key => (licensesOf parse cs key).length).sum ≤
        ((identitiesOf parse cs).map fun key => (licensesOf parse (cs ++ cs') key).length).sum := by
      apply List.sum_le_sum
      intro key _
      exact licensesOf_length_le cs cs' key
    rw [hkeys, List.map_append, List.sum_append] at hcount
    omega

/-! ### Recording a component -/

/-- A text is read, or rejected where it is neither a string nor `null`. -/
theorem textOf_settles {value : Option (Scalar δ)} (h : ∀ text ∈ value.bind stringOf, text.length ≤ MAX_TEXT) :
    Settles Error.Rejects (value.any (fun value => !isText value) = true) (value.bind stringOf) (textOf value) := by
  cases value with
  | none => exact .ok (by simp)
  | some value =>
    cases value with
    | null => exact .ok (by simp [isText])
    | boolean b => exact .error rfl trivial
    | integer n => exact .error rfl trivial
    | decimal d => exact .error rfl trivial
    | string s =>
      have hshort : ¬ MAX_TEXT < s.length := not_lt.2 (h s rfl)
      rw [textOf, if_neg hshort]
      exact .ok (by simp [isText])

/-- A component that has been read shows what is in the document. -/
structure Shows (component : Component δ) (c : JsonTree (Scalar δ)) : Prop where
  fields : ∀ name ∈ Walk.COMPONENT_FIELDS, component.fields.get name = scalarAt name c
  licenses : component.licenses.getD [] = declarationsOf c

private theorem name_mem_fields : "name".toList ∈ Walk.COMPONENT_FIELDS := by decide

private theorem version_mem_fields : "version".toList ∈ Walk.COMPONENT_FIELDS := by decide

private theorem type_mem_fields : "type".toList ∈ Walk.COMPONENT_FIELDS := by decide

private theorem purl_mem_fields : "purl".toList ∈ Walk.COMPONENT_FIELDS := by decide

private theorem Within.short_of_mem (h : Within parse cs) (hc : c ∈ cs) (hlicensed : isLicensed c = true) {name : Str}
    (hname : name = "name".toList ∨ name = "version".toList) : ∀ text ∈ textAt name c, text.length ≤ MAX_TEXT := by
  intro text htext
  apply h.names c hc hlicensed text
  rw [List.reduceOption_mem_iff]
  rcases hname with rfl | rfl
  · rw [← Option.mem_def.1 htext]
    exact List.mem_cons_self
  · rw [← Option.mem_def.1 htext]
    exact List.mem_cons_of_mem _ List.mem_cons_self

/-- Within the limits, one more component with licenses is retained under its identity. -/
private theorem retain_checks {T : Tally} {purl : Option Str} {name : Str} {version : Option Str}
    (hlicensed : T.licensed = (tallyOf parse cs).licensed) (hlicenses : T.licenses = (tallyOf parse cs).licenses)
    (his : isLicensed c = true) (hwithin : Within parse (cs ++ [c])) (hkey : identityOf parse c = (purl, name, version)) :
    (do
      raiseIf (T.licensed.get (purl, name, version) = none ∧ MAX_IDENTITIES < T.licensed.entries.length + 1)
        (.limit "SBOM exceeds the 10,000 licensed component analysis limit")
      raiseIf (MAX_IDENTITIES < T.licenses + ((declarationsOf c).filter
          (· ∉ ((T.licensed.get (purl, name, version)).getD ⟨name, version, purl, []⟩).licenses)).length)
        (.limit "SBOM exceeds the 10,000 license declaration analysis limit")
      pure { T with
        licensed := T.licensed.set (purl, name, version)
          { (T.licensed.get (purl, name, version)).getD ⟨name, version, purl, []⟩ with
            licenses := ((T.licensed.get (purl, name, version)).getD ⟨name, version, purl, []⟩).licenses ++
              (declarationsOf c).filter
                (· ∉ ((T.licensed.get (purl, name, version)).getD ⟨name, version, purl, []⟩).licenses) }
        licenses := T.licenses + ((declarationsOf c).filter
          (· ∉ ((T.licensed.get (purl, name, version)).getD ⟨name, version, purl, []⟩).licenses)).length } :
      Except Error Tally) =
    .ok { T with
      licensed := (tallyOf parse (cs ++ [c])).licensed, licenses := (tallyOf parse (cs ++ [c])).licenses } := by
  have hroom : ¬ ((tallyOf parse cs).licensed.get (purl, name, version) = none ∧
      MAX_IDENTITIES < (tallyOf parse cs).licensed.entries.length + 1) := by
    rintro ⟨hnone, hfull⟩
    have hnot : identityOf parse c ∉ identitiesOf parse cs := by
      rw [get_licensed, ← hkey] at hnone
      intro hmem
      rw [if_pos hmem] at hnone
      cases hnone
    have hcount := hwithin.licensed
    rw [identitiesOf_concat, if_pos ⟨his, hnot⟩, List.length_append, List.length_singleton] at hcount
    have hentries : (tallyOf parse cs).licensed.entries.length = (identitiesOf parse cs).length := List.length_map _
    omega
  have hsum := @licenses_concat δ parse cs c his
  have hfit : ¬ MAX_IDENTITIES < (tallyOf parse cs).licenses + ((declarationsOf c).filter
      (· ∉ licensesOf parse cs (identityOf parse c))).length := by
    have hcount : (tallyOf parse (cs ++ [c])).licenses ≤ MAX_IDENTITIES := hwithin.licenses
    omega
  have hgrown : licensedComponent parse (cs ++ [c]) (identityOf parse c) = { licensedComponent parse cs (identityOf parse c) with
      licenses := (licensedComponent parse cs (identityOf parse c)).licenses ++
        (declarationsOf c).filter (· ∉ (licensedComponent parse cs (identityOf parse c)).licenses) } := by
    unfold licensedComponent
    rw [licensesOf_concat, if_pos ⟨his, rfl⟩]
  have hset := @set_licensed δ parse cs c his
  rw [hgrown, hkey] at hset
  rw [hkey] at hfit hsum
  rw [hlicensed, hlicenses, retained_eq, raiseIf, if_neg hroom, ok_bind, hset]
  have hcheck : ∀ e : Error, raiseIf (MAX_IDENTITIES < (tallyOf parse cs).licenses + ((declarationsOf c).filter
      (· ∉ (licensedComponent parse cs (purl, name, version)).licenses)).length) e = .ok () :=
    fun e => raiseIf_eq_ok.2 hfit
  rw [hcheck, ok_bind, hsum]
  rfl

/-- The licenses of one more component are retained. -/
private theorem retain_settles {T : Tally} {component : Component δ} (hshows : Shows component c)
    (hfile : isFile c = false)
    (hlicensed : T.licensed = (tallyOf parse cs).licensed) (hlicenses : T.licenses = (tallyOf parse cs).licenses)
    (hwithin : Within parse (cs ++ [c])) :
    Settles Error.Rejects ((isLicensed c && (badName "name".toList c || badName "version".toList c)) = true)
      { T with licensed := (tallyOf parse (cs ++ [c])).licensed, licenses := (tallyOf parse (cs ++ [c])).licenses }
      (T.retain component (purlOf parse c)) := by
  unfold Tally.retain
  dsimp only
  rw [hshows.licenses, hshows.fields _ name_mem_fields, hshows.fields _ version_mem_fields]
  by_cases hnone : declarationsOf c = []
  · have hnot : isLicensed c = false := by simp [isLicensed, hnone]
    obtain ⟨hsame, hsame'⟩ := @retained_of_not_licensed δ parse cs c hnot
    rw [if_pos hnone, hsame, hsame', ← hlicensed, ← hlicenses]
    exact .ok (by simp [hnot])
  · have his : isLicensed c = true := by simp [isLicensed, hfile, hnone]
    have hmem : c ∈ cs ++ [c] := List.mem_append_right _ (List.mem_singleton_self c)
    rw [if_neg hnone]
    refine ((textOf_settles (hwithin.short_of_mem hmem his (Or.inl rfl))).bind fun _ =>
      (textOf_settles (hwithin.short_of_mem hmem his (Or.inr rfl))).map ?_).congr ?_
    · exact retain_checks hlicensed hlicenses his hwithin rfl
    · simp [his, badName]

theorem textAt_eq_some {name s : Str} : textAt name c = some s ↔ scalarAt name c = some (.string s) := by
  unfold textAt
  constructor
  · intro h
    obtain ⟨value, hvalue, hstring⟩ := Option.bind_eq_some_iff.1 h
    cases value with
    | string s =>
      obtain rfl := Option.some.inj hstring
      exact hvalue
    | null => cases hstring
    | boolean b => cases hstring
    | integer n => cases hstring
    | decimal d => cases hstring
  · intro h
    rw [h]
    rfl

/-- What is counted with one more component, apart from what is retained of it. -/
private theorem tallyOf_concat : tallyOf parse (cs ++ [c]) =
    { tallyOf parse (cs ++ [c]) with
      components := cs.length + 1
      files := cs.countP isFile + if isFile c = true then 1 else 0
      unidentified := (tallyOf parse cs).unidentified +
        if (!isFile c && (purlOf parse c).isNone) = true then 1 else 0
      purls := (identified parse c).elim (tallyOf parse cs).purls (tallyOf parse cs).purls.insert } := by
  have hpurls : (tallyOf parse (cs ++ [c])).purls =
      (identified parse c).elim (tallyOf parse cs).purls (tallyOf parse cs).purls.insert := by
    unfold tallyOf
    dsimp only
    rw [List.filterMap_append, List.foldl_append]
    cases hpurl : identified parse c with
    | none => rw [List.filterMap_cons_none hpurl]; rfl
    | some purl => rw [List.filterMap_cons_some hpurl]; rfl
  have hlength : (cs ++ [c]).length = cs.length + 1 := List.length_append
  have hcount : ∀ p : JsonTree (Scalar δ) → Bool, (cs ++ [c]).countP p = cs.countP p + if p c = true then 1 else 0 := by
    intro p
    rw [List.countP_append, List.countP_singleton]
  have hfiles := hcount isFile
  have hunidentified := hcount fun c => !isFile c && (purlOf parse c).isNone
  rw [← hpurls, ← hlength, ← hfiles]
  unfold tallyOf
  dsimp only
  rw [hunidentified]

/-- One more component is recorded at the end. -/
theorem record_settles {component : Component δ} (hshows : Shows component c) (hwithin : Within parse (cs ++ [c])) :
    Settles Error.Rejects ((isLicensed c && (badName "name".toList c || badName "version".toList c)) = true)
      (tallyOf parse (cs ++ [c])) ((tallyOf parse cs).record parse component) := by
  have hroom : ¬ MAX_COMPONENTS < (tallyOf parse cs).components + 1 := by
    have hcount := hwithin.components
    rw [List.length_append, List.length_singleton] at hcount
    exact not_lt.2 hcount
  have htype := hshows.fields _ type_mem_fields
  have hpurl : packageUrl parse (component.fields.get "purl".toList) = purlOf parse c := by
    rw [hshows.fields _ purl_mem_fields]
    rfl
  have hstep := @tallyOf_concat δ parse cs c
  dsimp only at hstep
  unfold Tally.record
  dsimp only
  rw [(raiseIf_eq_ok (u := ())).2 hroom, ok_bind, hpurl, htype]
  split
  · rename_i hmatch
    have hfile : isFile c = true := decide_eq_true (textAt_eq_some.2 hmatch)
    have hnot : isLicensed c = false := by simp [isLicensed, hfile]
    obtain ⟨hlicensed, hlicenses⟩ := @retained_of_not_licensed δ parse cs c hnot
    have hnone : identified parse c = none := by
      unfold identified
      rw [if_pos hfile]
    have hsame : tallyOf parse (cs ++ [c]) = { tallyOf parse cs with
        components := (tallyOf parse cs).components + 1, files := (tallyOf parse cs).files + 1 } := by
      rw [hstep, hlicensed, hlicenses, hnone, if_pos hfile, if_neg (by simp [hfile])]
      rfl
    rw [hsame, if_pos rfl]
    exact .ok (by simp [hnot])
  · rename_i hmatch
    have hfile : isFile c = false := decide_eq_false fun htext => hmatch (textAt_eq_some.1 htext)
    have hidentified : identified parse c = (purlOf parse c).map (·.text) := by
      unfold identified
      rw [if_neg (by simp [hfile])]
    rw [if_neg Bool.false_ne_true]
    refine (@retain_settles δ parse cs c { tallyOf parse cs with components := (tallyOf parse cs).components + 1 }
      component hshows hfile rfl rfl hwithin).map ?_
    rw [hidentified, if_neg (by simp [hfile])] at hstep
    cases hparsed : purlOf parse c with
    | none =>
      rw [hparsed, if_pos (by simp [hfile])] at hstep
      rw [hstep]
      rfl
    | some purl =>
      have hmem : purl.text ∈ (cs ++ [c]).filterMap (identified parse) := by
        rw [List.mem_filterMap]
        exact ⟨c, List.mem_append_right _ (List.mem_singleton_self c), by rw [hidentified, hparsed]; rfl⟩
      have hshort : ¬ MAX_TEXT < purl.text.length := not_lt.2 (hwithin.purls _ hmem)
      have hpurls : (tallyOf parse (cs ++ [c])).purls = (tallyOf parse cs).purls.insert purl.text := by
        rw [hstep, hparsed]
        rfl
      have hcount : ¬ MAX_IDENTITIES < ((tallyOf parse cs).purls.insert purl.text).length := by
        have hlength : (tallyOf parse (cs ++ [c])).purls.length =
            ((cs ++ [c]).filterMap (identified parse)).eraseDups.length := (foldl_insert_perm _).length_eq
        have hidentities := hwithin.identities
        rw [← hpurls]
        omega
      rw [hparsed, if_neg (by simp)] at hstep
      dsimp only
      rw [(raiseIf_eq_ok (u := ())).2 hshort, ok_bind, (raiseIf_eq_ok (u := ())).2 hcount, ok_bind, hstep]
      rfl

end Streaming

end TrustedReleases
