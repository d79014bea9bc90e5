import TrustedReleases.Versions.CalverCycles

/-!
# The order of calendar versions

A version that has the fields of another one with the same values, and more fields, never comes before it.  It comes
after it exactly if one of the further fields is not zero, as long as the digits can be read (`coarser_lt_iff`).
-/

namespace TrustedReleases

open Lib Regex

namespace Calver

/-- The fields that a match captures, with their texts. -/
def captured (m : Match) (roles : List Role) : List (Role × Str) :=
  roles.filterMap fun role => (m.stop.groups role.name).map fun text => (role, text)

/-- The fields that a version has, in the order of the format, if it fits the format. -/
def matchedFields (dateFormat version : Str) : Except Error (Option (List (Role × Str))) := do
  let atoms ← parse dateFormat
  let pattern ← orderRegex dateFormat
  return (fullMatch pattern version).map fun m => captured m (atoms.filterMap (·.role))

/-- The value of a field. -/
def valueOf (field : Role × Str) : Role × Nat := (field.1, decimalNumeral field.2)

/-- The value of a role, which is 0 without the field. -/
def valueAt (values : List (Role × Nat)) (role : Role) : Nat := (values.lookup role).getD 0

/-- The tuple of the values of the roles. -/
def keyOf (values : List (Role × Nat)) : Key :=
  toLex (valueAt values .year, toLex (valueAt values .month, toLex (valueAt values .day, valueAt values .serial)))

/-! ### Groups of a format -/

private theorem groupNames_cat (rs : List Regex) : (cat rs).groupNames = rs.flatMap groupNames := by
  induction rs with
  | nil => rfl
  | cons r rs ih =>
    have hcons : (cat (r :: rs)).groupNames = r.groupNames ++ (cat rs).groupNames := rfl
    rw [hcons, ih, List.flatMap_cons]

private theorem groupNames_nestedOptional (chunks : List Regex) :
    (nestedOptional chunks).groupNames = chunks.flatMap groupNames := by
  induction chunks with
  | nil => rfl
  | cons chunk chunks ih =>
    have hcons : (nestedOptional (chunk :: chunks)).groupNames =
        chunk.groupNames ++ (nestedOptional chunks).groupNames ++ [] := rfl
    rw [hcons, ih, List.append_nil, List.flatMap_cons]

private theorem Parsed.groupNames {a : Atom} (h : Parsed a) : a.regex.groupNames = [] := by
  rcases h with ⟨c, hregex, -⟩ | ⟨token, htoken, hregex, -⟩
  · rw [hregex]
    rfl
  · rw [hregex]
    simp only [TOKENS, List.mem_cons, List.not_mem_nil, or_false] at htoken
    rcases htoken with rfl | rfl | rfl | rfl | rfl | rfl | rfl <;> rfl

/-- The groups of the chunks are named after the roles. -/
private theorem groupNames_chunksFrom {pending : List Regex} {atoms : List Atom} (hparsed : ∀ a ∈ atoms, Parsed a)
    (hpending : pending.flatMap groupNames = []) :
    (chunksFrom (fun role regex => group role.name regex) pending atoms).flatMap groupNames =
      (atoms.filterMap (·.role)).map Role.name := by
  induction atoms generalizing pending with
  | nil =>
    rw [chunksFrom]
    split
    · rfl
    · rw [List.flatMap_singleton, groupNames_cat, hpending]
      rfl
  | cons a atoms ih =>
    obtain ⟨ha, hatoms⟩ := List.forall_mem_cons.1 hparsed
    rw [chunksFrom]
    cases hrole : a.role with
    | none =>
      rw [List.filterMap_cons_none hrole]
      apply ih hatoms
      rw [List.flatMap_append, hpending, List.flatMap_singleton, ha.groupNames, List.append_nil]
    | some role =>
      rw [List.filterMap_cons_some hrole, List.map_cons]
      have hchunk : (cat (pending ++ [group role.name a.regex])).groupNames = [role.name] := by
        have hgroup : (group role.name a.regex).groupNames = role.name :: a.regex.groupNames := rfl
        rw [groupNames_cat, List.flatMap_append, hpending, List.flatMap_singleton, hgroup, ha.groupNames,
          List.nil_append]
      simp only
      rw [List.flatMap_cons, hchunk, ih hatoms rfl, List.singleton_append]

private theorem groupNames_orderRegex {dateFormat : Str} {atoms : List Atom} {pattern : Regex}
    (hparse : parse dateFormat = .ok atoms) (horder : orderRegex dateFormat = .ok pattern) :
    pattern.groupNames = (atoms.filterMap (·.role)).map Role.name := by
  have hnames := @groupNames_chunksFrom [] atoms (parseFrom_parsed hparse) rfl
  rw [orderRegex, hparse, ok_bind] at horder
  cases hchunks : chunksFrom (fun role regex => group role.name regex) [] atoms with
  | nil =>
    rw [hchunks] at horder
    cases horder
  | cons chunk chunks =>
    rw [hchunks] at horder hnames
    obtain rfl := Except.ok.inj horder
    rw [← hnames, groupNames_cat, List.flatMap_cons, List.flatMap_cons, List.flatMap_cons,
      List.flatMap_cons, groupNames_nestedOptional, List.flatMap_cons]
    simp [groupNames]

private theorem Role.name_inj {a b : Role} (h : a.name = b.name) : a = b := by
  cases a <;> cases b <;> first | rfl | exact absurd h (by decide)

/-! ### The fields of a version -/

variable {m : Match} {role : Role} {roles : List Role}

private theorem captured_cons_none (h : m.stop.groups role.name = none) :
    captured m (role :: roles) = captured m roles := by
  simp [captured, h]

private theorem captured_cons_some {text : Str} (h : m.stop.groups role.name = some text) :
    captured m (role :: roles) = (role, text) :: captured m roles := by
  simp [captured, h]

private theorem mem_captured {field : Role × Str} :
    field ∈ captured m roles ↔ field.1 ∈ roles ∧ m.stop.groups field.1.name = some field.2 := by
  rw [captured, List.mem_filterMap]
  constructor
  · rintro ⟨role, hrole, hgroup⟩
    obtain ⟨text, htext, rfl⟩ := Option.map_eq_some_iff.1 hgroup
    exact ⟨hrole, htext⟩
  · rintro ⟨hrole, hgroup⟩
    exact ⟨field.1, hrole, by rw [hgroup]; rfl⟩

private theorem map_fst_captured (m : Match) (roles : List Role) : ((captured m roles).map Prod.fst).Sublist roles := by
  induction roles with
  | nil => exact List.Sublist.refl _
  | cons role roles ih =>
    cases hgroup : m.stop.groups role.name with
    | none =>
      rw [captured_cons_none hgroup]
      exact ih.cons role
    | some text =>
      rw [captured_cons_some hgroup]
      exact ih.cons_cons role

/-- The value of a role is that of its group. -/
private theorem valueAt_captured (h : role ∉ roles → m.stop.groups role.name = none) :
    valueAt ((captured m roles).map valueOf) role = ((m.stop.groups role.name).map decimalNumeral).getD 0 := by
  induction roles with
  | nil =>
    rw [h List.not_mem_nil]
    rfl
  | cons other roles ih =>
    by_cases hsame : role = other
    · subst hsame
      cases hgroup : m.stop.groups role.name with
      | none =>
        rw [hgroup] at ih
        rw [captured_cons_none hgroup]
        exact ih fun _ => rfl
      | some text =>
        rw [captured_cons_some hgroup]
        simp [valueAt, valueOf]
    · have hih := ih fun hrole => h (List.not_mem_cons_of_ne_of_not_mem hsame hrole)
      cases hgroup : m.stop.groups other.name with
      | none => rwa [captured_cons_none hgroup]
      | some text =>
        have hne : (role == other) = false := beq_false_of_ne hsame
        rw [captured_cons_some hgroup, List.map_cons, valueAt, valueOf, List.lookup_cons, hne]
        exact hih

private theorem fieldOf_eq_ok {m : Match} {role : Role} {n : Nat} : fieldOf m role = .ok n ↔
    (∀ captured, m.stop.groups role.name = some captured → captured.length ≤ MAX_STR_DIGITS) ∧
      n = ((m.stop.groups role.name).map decimalNumeral).getD 0 := by
  rw [fieldOf]
  cases hgroup : m.stop.groups role.name with
  | none => simp [eq_comm]
  | some captured =>
    by_cases hnil : captured = []
    · subst hnil
      simp [decimalNumeral, eq_comm]
    · simp only [hnil, if_false]
      rw [int]
      constructor
      · intro h
        obtain ⟨hlength, h⟩ := raiseIf_bind_eq_ok.1 h
        refine ⟨fun other hother => ?_, (Except.ok.inj h).symm⟩
        obtain rfl := Option.some.inj hother
        exact Nat.not_lt.1 hlength
      · rintro ⟨hlength, rfl⟩
        exact raiseIf_bind_eq_ok.2 ⟨Nat.not_lt.2 (hlength captured rfl), rfl⟩

variable {dateFormat version : Str} {fields : List (Role × Str)}

/-- The fields of a version and the match that captures them. -/
private theorem matchedFields_eq_some (h : matchedFields dateFormat version = .ok (some fields)) : ∃ atoms pattern m,
    parse dateFormat = .ok atoms ∧ orderRegex dateFormat = .ok pattern ∧ fullMatch pattern version = some m ∧
      fields = captured m (atoms.filterMap (·.role)) := by
  rw [matchedFields] at h
  obtain ⟨atoms, hparse, h⟩ := bind_eq_ok h
  obtain ⟨pattern, horder, h⟩ := bind_eq_ok h
  obtain ⟨m, hmatch, hfields⟩ := Option.map_eq_some_iff.1 (Except.ok.inj h)
  exact ⟨atoms, pattern, m, hparse, horder, hmatch, hfields.symm⟩

/-- No field of an accepted format is matched twice. -/
private theorem nodup_matchedFields (hvalid : validate dateFormat = .ok ())
    (h : matchedFields dateFormat version = .ok (some fields)) : (fields.map Prod.fst).Nodup := by
  obtain ⟨atoms, -, m, hparse, -, -, rfl⟩ := matchedFields_eq_some h
  obtain ⟨atoms', -, hparse', -, hnodup⟩ := validate_eq_ok hvalid
  obtain rfl := Except.ok.inj (hparse.symm.trans hparse')
  exact hnodup.sublist (map_fst_captured m _)

/-- The tuple of a version is that of its fields, if they can be read. -/
private theorem orderKey_eq_some (h : matchedFields dateFormat version = .ok (some fields)) {key : Key} :
    orderKey dateFormat version = .ok (some key) ↔
      (∀ field ∈ fields, field.2.length ≤ MAX_STR_DIGITS) ∧ key = keyOf (fields.map valueOf) := by
  obtain ⟨atoms, pattern, m, hparse, horder, hmatch, rfl⟩ := matchedFields_eq_some h
  -- a role that the format does not have has no group
  have hnone (role : Role) (hrole : role ∉ atoms.filterMap (·.role)) : m.stop.groups role.name = none := by
    refine fullMatch_groups ?_ hmatch
    rw [groupNames_orderRegex hparse horder]
    intro hmem
    obtain ⟨other, hother, hname⟩ := List.mem_map.1 hmem
    rw [Role.name_inj hname] at hother
    exact hrole hother
  have hlength : (∀ field ∈ captured m (atoms.filterMap (·.role)), field.2.length ≤ MAX_STR_DIGITS) ↔
      ∀ (role : Role) text, m.stop.groups role.name = some text → text.length ≤ MAX_STR_DIGITS := by
    constructor
    · intro hall role text hgroup
      by_cases hrole : role ∈ atoms.filterMap (·.role)
      · exact hall (role, text) (mem_captured.2 ⟨hrole, hgroup⟩)
      · rw [hnone role hrole] at hgroup
        cases hgroup
    · intro hall field hfield
      exact hall field.1 field.2 (mem_captured.1 hfield).2
  have hvalue (role : Role) := valueAt_captured (hnone role)
  rw [hlength, keyOf, hvalue, hvalue, hvalue, hvalue, orderKey, horder, ok_bind, hmatch]
  constructor
  · intro hkey
    obtain ⟨year, hyear, hkey⟩ := bind_eq_ok hkey
    obtain ⟨month, hmonth, hkey⟩ := bind_eq_ok hkey
    obtain ⟨day, hday, hkey⟩ := bind_eq_ok hkey
    obtain ⟨serial, hserial, hkey⟩ := bind_eq_ok hkey
    obtain ⟨hyearLength, rfl⟩ := fieldOf_eq_ok.1 hyear
    obtain ⟨hmonthLength, rfl⟩ := fieldOf_eq_ok.1 hmonth
    obtain ⟨hdayLength, rfl⟩ := fieldOf_eq_ok.1 hday
    obtain ⟨hserialLength, rfl⟩ := fieldOf_eq_ok.1 hserial
    refine ⟨fun role => ?_, (Option.some.inj (Except.ok.inj hkey)).symm⟩
    cases role with
    | year => exact hyearLength
    | month => exact hmonthLength
    | day => exact hdayLength
    | serial => exact hserialLength
  · rintro ⟨hall, rfl⟩
    have hfield (role : Role) := fieldOf_eq_ok.2 ⟨hall role, rfl⟩
    simp only [hfield, ok_bind]
    rfl

/-! ### Comparing tuples -/

variable {values more : List (Role × Nat)}

private theorem toLex_le {α β : Type} [PartialOrder α] [Preorder β] {a a' : α} {b b' : β} (ha : a ≤ a') (hb : b ≤ b') :
    toLex (a, b) ≤ toLex (a', b') := Prod.Lex.toLex_mono ⟨ha, hb⟩

private theorem keyOf_le {other : List (Role × Nat)} (h : ∀ role, valueAt values role ≤ valueAt other role) :
    keyOf values ≤ keyOf other :=
  toLex_le (h .year) (toLex_le (h .month) (toLex_le (h .day) (h .serial)))

private theorem keyOf_eq_iff {other : List (Role × Nat)} :
    keyOf values = keyOf other ↔ ∀ role, valueAt values role = valueAt other role := by
  constructor
  · intro h role
    have hyear := congrArg (fun key : Key => (ofLex key).1) h
    have hmonth := congrArg (fun key : Key => (ofLex (ofLex key).2).1) h
    have hday := congrArg (fun key : Key => (ofLex (ofLex (ofLex key).2).2).1) h
    have hserial := congrArg (fun key : Key => (ofLex (ofLex (ofLex key).2).2).2) h
    cases role with
    | year => exact hyear
    | month => exact hmonth
    | day => exact hday
    | serial => exact hserial
  · intro h
    rw [keyOf, keyOf, h, h, h, h]

private theorem valueAt_append_of_mem {role : Role} (h : role ∈ values.map Prod.fst) :
    valueAt (values ++ more) role = valueAt values role := by
  rw [valueAt, valueAt, List.lookup_append]
  have hsome : (values.lookup role).isSome := by
    rw [List.lookup_isSome_iff]
    obtain ⟨field, hfield, rfl⟩ := List.mem_map.1 h
    exact ⟨field, hfield, beq_self_eq_true field.1⟩
  rw [Option.or_of_isSome hsome]

private theorem lookup_of_notMem {role : Role} (h : role ∉ values.map Prod.fst) : values.lookup role = none := by
  rw [List.lookup_eq_none_iff]
  intro field hfield
  have hne : role ≠ field.1 := by
    intro hrole
    apply h
    rw [hrole]
    exact List.mem_map_of_mem hfield
  simpa using hne

private theorem valueAt_of_notMem {role : Role} (h : role ∉ values.map Prod.fst) : valueAt values role = 0 := by
  rw [valueAt, lookup_of_notMem h, Option.getD_none]

private theorem valueAt_append_of_notMem {role : Role} (h : role ∉ values.map Prod.fst) :
    valueAt (values ++ more) role = valueAt more role := by
  rw [valueAt, valueAt, List.lookup_append, lookup_of_notMem h, Option.none_or]

private theorem valueAt_le_append (values more : List (Role × Nat)) (role : Role) :
    valueAt values role ≤ valueAt (values ++ more) role := by
  by_cases hrole : role ∈ values.map Prod.fst
  · rw [valueAt_append_of_mem hrole]
  · rw [valueAt_of_notMem hrole]
    exact Nat.zero_le _

private theorem valueAt_of_mem (hnodup : (values.map Prod.fst).Nodup) {field : Role × Nat} (h : field ∈ values) :
    valueAt values field.1 = field.2 := by
  obtain ⟨before, after, rfl⟩ := List.append_of_mem h
  rw [List.map_append, List.map_cons] at hnodup
  have hbefore : field.1 ∉ before.map Prod.fst := by
    intro hmem
    exact (List.nodup_append.1 hnodup).2.2 _ hmem _ List.mem_cons_self rfl
  rw [valueAt_append_of_notMem hbefore, valueAt, List.lookup_cons_self, Option.getD_some]

/-- Further values make a tuple greater exactly if one of them is not zero. -/
private theorem keyOf_lt_append_iff (hnodup : ((values ++ more).map Prod.fst).Nodup) :
    keyOf values < keyOf (values ++ more) ↔ ∃ field ∈ more, field.2 ≠ 0 := by
  rw [lt_iff_le_and_ne, and_iff_right (keyOf_le (valueAt_le_append values more)), ne_eq, keyOf_eq_iff, not_forall]
  have hdisjoint {field : Role × Nat} (hfield : field ∈ more) : field.1 ∉ values.map Prod.fst := by
    intro hmem
    rw [List.map_append, List.nodup_append] at hnodup
    exact hnodup.2.2 _ hmem _ (List.mem_map_of_mem hfield) rfl
  constructor
  · rintro ⟨role, hne⟩
    by_cases hrole : role ∈ values.map Prod.fst
    · exact absurd (valueAt_append_of_mem hrole).symm hne
    · rw [valueAt_of_notMem hrole, valueAt_append_of_notMem hrole] at hne
      have hmore : role ∈ more.map Prod.fst := by
        by_contra hmore
        exact hne (valueAt_of_notMem hmore).symm
      obtain ⟨field, hfield, rfl⟩ := List.mem_map.1 hmore
      have hnodup' : (more.map Prod.fst).Nodup := hnodup.sublist ((List.sublist_append_right values more).map _)
      rw [valueAt_of_mem hnodup' hfield] at hne
      exact ⟨field, hfield, Ne.symm hne⟩
  · rintro ⟨field, hfield, hne⟩
    refine ⟨field.1, ?_⟩
    rw [valueAt_of_notMem (hdisjoint hfield), valueAt_of_mem hnodup (List.mem_append_right values hfield)]
    exact Ne.symm hne

/-- A version comes before one with the same values and further fields exactly if one of these is not zero, as long as
the digits of both can be read. -/
theorem coarser_lt_iff (hvalid : validate dateFormat = .ok ()) {v w : Str} {fv fw : List (Role × Str)}
    (hv : matchedFields dateFormat v = .ok (some fv)) (hw : matchedFields dateFormat w = .ok (some fw))
    (hmore : fw.map valueOf = fv.map valueOf ++ more) :
    (∃ kv kw, orderKey dateFormat v = .ok (some kv) ∧ orderKey dateFormat w = .ok (some kw) ∧ kv < kw) ↔
      (∃ field ∈ more, field.2 ≠ 0) ∧ ∀ field ∈ fv ++ fw, field.2.length ≤ MAX_STR_DIGITS := by
  have hnodup : ((fv.map valueOf ++ more).map Prod.fst).Nodup := by
    rw [← hmore, List.map_map]
    exact nodup_matchedFields hvalid hw
  have hlt : keyOf (fv.map valueOf) < keyOf (fw.map valueOf) ↔ ∃ field ∈ more, field.2 ≠ 0 := by
    rw [hmore]
    exact keyOf_lt_append_iff hnodup
  rw [List.forall_mem_append, ← hlt]
  constructor
  · rintro ⟨kv, kw, hkv, hkw, hless⟩
    obtain ⟨hvLength, rfl⟩ := (orderKey_eq_some hv).1 hkv
    obtain ⟨hwLength, rfl⟩ := (orderKey_eq_some hw).1 hkw
    exact ⟨hless, hvLength, hwLength⟩
  · rintro ⟨hless, hvLength, hwLength⟩
    exact ⟨_, _, (orderKey_eq_some hv).2 ⟨hvLength, rfl⟩, (orderKey_eq_some hw).2 ⟨hwLength, rfl⟩, hless⟩

/-- A further serial that is not zero. -/
theorem coarser_lt_serial : ∃ kv kw, orderKey "(YY.MM).N".toList "09.04".toList = .ok (some kv) ∧
    orderKey "(YY.MM).N".toList "09.04.1".toList = .ok (some kw) ∧ kv < kw := by
  have hv : matchedFields "(YY.MM).N".toList "09.04".toList =
      .ok (some [(.year, "09".toList), (.month, "04".toList)]) := by decide +kernel
  have hw : matchedFields "(YY.MM).N".toList "09.04.1".toList =
      .ok (some [(.year, "09".toList), (.month, "04".toList), (.serial, "1".toList)]) := by decide +kernel
  have hmore : [(Role.year, "09".toList), (.month, "04".toList), (.serial, "1".toList)].map valueOf =
      [(Role.year, "09".toList), (.month, "04".toList)].map valueOf ++ [(.serial, 1)] := by decide +kernel
  exact (coarser_lt_iff (by decide +kernel) hv hw hmore).2 ⟨by decide, by decide⟩

/-- A coarser version and a finer one of the same rank. -/
theorem coarser_eq_zero_serial : ¬ ∀ dateFormat atoms v w fv fw more, validate dateFormat = .ok () →
    parse dateFormat = .ok atoms → atoms.filterMap (·.role) = [.year, .month, .day, .serial] →
      matchedFields dateFormat v = .ok (some fv) → matchedFields dateFormat w = .ok (some fw) →
        fw.map valueOf = fv.map valueOf ++ more → more ≠ [] →
          ∃ kv kw, orderKey dateFormat v = .ok (some kv) ∧ orderKey dateFormat w = .ok (some kw) ∧ kv < kw := by
  intro h
  obtain ⟨atoms, hparse, hroles⟩ : ∃ atoms, parse "(YYYY.MM).DD.N".toList = .ok atoms ∧
      atoms.filterMap (·.role) = [.year, .month, .day, .serial] := ⟨_, rfl, rfl⟩
  obtain ⟨kv, kw, hkv, hkw, hlt⟩ := h "(YYYY.MM).DD.N".toList atoms "2009.04.01".toList "2009.04.01.0".toList
    [(.year, "2009".toList), (.month, "04".toList), (.day, "01".toList)]
    [(.year, "2009".toList), (.month, "04".toList), (.day, "01".toList), (.serial, "0".toList)] [(.serial, 0)]
    (by decide +kernel) hparse hroles (by decide +kernel) (by decide +kernel) (by decide +kernel) (by decide)
  have hv : orderKey "(YYYY.MM).DD.N".toList "2009.04.01".toList =
      .ok (some (toLex (2009, toLex (4, toLex (1, 0))))) := by decide +kernel
  have hw : orderKey "(YYYY.MM).DD.N".toList "2009.04.01.0".toList =
      .ok (some (toLex (2009, toLex (4, toLex (1, 0))))) := by decide +kernel
  obtain rfl := Option.some.inj (Except.ok.inj (hkv.symm.trans hv))
  obtain rfl := Option.some.inj (Except.ok.inj (hkw.symm.trans hw))
  exact lt_irrefl _ hlt

end Calver

end TrustedReleases
