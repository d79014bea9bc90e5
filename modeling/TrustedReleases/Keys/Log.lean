import TrustedReleases.Keys.Certificates

/-!
# The log of a certificate

The rows of a certificate are numbered from one on, each leads from the placements before it to placements that hold
them, and the last placements are those of the stored block (`Chain`).  They are what the uploaded blocks place and is
kept, so that the order of the uploads does not matter.
-/

namespace TrustedReleases

open Lib Pgp

namespace Keys

/-! ### Rows -/

/-- Deltas that lead from one state to another, where every one of them only adds. -/
def Grows : Finset Placement → List (Option Bytes × Option Bytes) → Finset Placement → Prop
  | s, [], s' => s' = s
  | s, delta :: rest, s' =>
    ∃ t, (∀ order, applyDelta order s delta.1 delta.2 = .ok t) ∧ s ⊆ t ∧ Grows t rest s'

private theorem grows_append {s s' : Finset Placement} {ds ds' : List (Option Bytes × Option Bytes)} :
    Grows s (ds ++ ds') s' ↔ ∃ t, Grows s ds t ∧ Grows t ds' s' := by
  induction ds generalizing s with
  | nil =>
    constructor
    · intro h
      exact ⟨s, rfl, h⟩
    · rintro ⟨t, rfl, h⟩
      exact h
  | cons d ds ih =>
    constructor
    · rintro ⟨t, happly, hsub, hrest⟩
      obtain ⟨u, hu, hrest⟩ := ih.1 hrest
      exact ⟨u, ⟨t, happly, hsub, hu⟩, hrest⟩
    · rintro ⟨u, ⟨t, happly, hsub, hu⟩, hrest⟩
      exact ⟨t, happly, hsub, ih.2 ⟨u, hu, hrest⟩⟩

theorem Grows.fold {s s' : Finset Placement} {ds : List (Option Bytes × Option Bytes)} (h : Grows s ds s')
    (order : Iteration) : ds.foldlM (fun state delta => applyDelta order state delta.1 delta.2) s = .ok s' := by
  induction ds generalizing s with
  | nil =>
    obtain rfl := h
    rfl
  | cons d ds ih =>
    obtain ⟨t, happly, -, hrest⟩ := h
    rw [List.foldlM_cons, happly order, ok_bind, ih hrest]

/-- The last deletion is later than the last restoration. -/
def LastDeleted (rows : List KeyAttestable) : Prop :=
  ∃ row ∈ rows, row.operation = .delete ∧ ∀ row' ∈ rows, row'.operation = .restore → row'.seq < row.seq

variable {rows : List KeyAttestable} {row : KeyAttestable}

private theorem lastDeleted_revise (hrow : row.operation = .revise) :
    LastDeleted (rows ++ [row]) ↔ LastDeleted rows := by
  unfold LastDeleted
  constructor
  · rintro ⟨r, hr, hdelete, hlast⟩
    have hold : r ∈ rows := by
      rcases List.mem_append.1 hr with hr | hr
      · exact hr
      · rw [List.mem_singleton.1 hr, hrow] at hdelete
        cases hdelete
    exact ⟨r, hold, hdelete, fun r' hr' hrestore => hlast r' (List.mem_append_left _ hr') hrestore⟩
  · rintro ⟨r, hr, hdelete, hlast⟩
    refine ⟨r, List.mem_append_left _ hr, hdelete, fun r' hr' hrestore => ?_⟩
    rcases List.mem_append.1 hr' with hr' | hr'
    · exact hlast r' hr' hrestore
    · rw [List.mem_singleton.1 hr', hrow] at hrestore
      cases hrestore

private theorem lastDeleted_delete (hrow : row.operation = .delete) (hseq : ∀ r ∈ rows, r.seq < row.seq) :
    LastDeleted (rows ++ [row]) := by
  refine ⟨row, by simp, hrow, fun r hr hrestore => ?_⟩
  rcases List.mem_append.1 hr with hr | hr
  · exact hseq r hr
  · rw [List.mem_singleton.1 hr, hrow] at hrestore
    cases hrestore

private theorem not_lastDeleted_restore (hrow : row.operation = .restore) (hseq : ∀ r ∈ rows, r.seq < row.seq) :
    ¬ LastDeleted (rows ++ [row]) := by
  rintro ⟨r, hr, hdelete, hlast⟩
  have hbelow := hlast row (by simp) hrow
  rcases List.mem_append.1 hr with hr | hr
  · have habove := hseq r hr
    omega
  · rw [List.mem_singleton.1 hr, hrow] at hdelete
    cases hdelete

/-! ### The invariant -/

/-- The rows of a certificate lead to a state: that of the blocks that were uploaded. -/
structure Logged (pgp : OpenPgp) (blocks : List Str) (rows : List KeyAttestable) (state : Finset Placement) : Prop where
  seqs : rows.map (·.seq) = List.range' 1 rows.length
  grows : Grows ∅ (deltas rows) state
  mem : ∀ x, x ∈ state ↔ MergedPlacements pgp blocks x
  primary : state = ∅ ∨ ∃ primary, State primary state

/-- The stored certificate fits its log and the blocks that were uploaded. -/
def Headed (blocks : List Str) (rows : List KeyAttestable) (state : Finset Placement) :
    Option SigningCertificate → Prop
  | none => blocks = [] ∧ rows = []
  | some head => rows ≠ [] ∧ certificatePlacements head.asciiArmoredKey = .ok state ∧
      (head.deleted.isSome ↔ LastDeleted rows)

/-- The log and the stored certificate of the blocks that were uploaded. -/
structure Chain (pgp : OpenPgp) (blocks : List Str) (rows : List KeyAttestable) (head : Option SigningCertificate)
    (state : Finset Placement) : Prop extends Logged pgp blocks rows state where
  headed : Headed blocks rows state head

variable {pgp : OpenPgp} {armor : Armor} {blocks : List Str} {state : Finset Placement}

theorem Logged.kept (h : Logged pgp blocks rows state) : ∀ x ∈ state, Kept pgp x := fun x hx => ((h.mem x).1 hx).2

theorem Logged.seq_lt (h : Logged pgp blocks rows state) {r : KeyAttestable} (hr : r ∈ rows) :
    r.seq < rows.length + 1 := by
  have hmem : r.seq ∈ rows.map (·.seq) := List.mem_map_of_mem hr
  rw [h.seqs, List.mem_range'_1] at hmem
  omega

theorem Logged.nil (pgp : OpenPgp) : Logged pgp [] [] ∅ where
  seqs := rfl
  grows := rfl
  mem x := by simp [MergedPlacements]
  primary := .inl rfl

/-- A row that is numbered next and leads on to a state that holds the one before. -/
theorem Logged.append (h : Logged pgp blocks rows state) {result : Finset Placement} {blocks' : List Str}
    (hseq : row.seq = rows.length + 1) (happly : ∃ order, applyDelta order state row.deletions row.additions = .ok result)
    (hsub : state ⊆ result) (hmem : ∀ x, x ∈ result ↔ MergedPlacements pgp blocks' x)
    (hprimary : result = ∅ ∨ ∃ primary, State primary result) : Logged pgp blocks' (rows ++ [row]) result where
  seqs := by
    rw [List.map_append, h.seqs, List.length_append, List.map_singleton, hseq, List.length_singleton,
      List.range'_1_concat, Nat.add_comm 1]
  grows := by
    obtain ⟨order, hok⟩ := happly
    unfold deltas
    rw [List.map_append]
    refine grows_append.2 ⟨state, h.grows, result, fun order' => ?_, hsub, rfl⟩
    rw [applyDelta_order h.primary order' order]
    exact hok
  mem := hmem
  primary := hprimary

/-! ### What the functions do to a log -/

variable {call : Call} {db db' : Database} {fingerprint : Str}

/-- The log of a certificate may have changed, and nothing else. -/
def OnlyLog (fingerprint : Str) (db db' : Database) : Prop :=
  db'.certificates = db.certificates ∧ ∀ other, other ≠ fingerprint → db'.log other = db.log other

theorem OnlyLog.refl (fingerprint : Str) (db : Database) : OnlyLog fingerprint db db := ⟨rfl, fun _ _ => rfl⟩

theorem OnlyLog.trans {db'' : Database} (h : OnlyLog fingerprint db db') (h' : OnlyLog fingerprint db' db'') :
    OnlyLog fingerprint db db'' :=
  ⟨h'.1.trans h.1, fun other hne => (h'.2 other hne).trans (h.2 other hne)⟩

theorem lifted_eq_ok {α : Type} {x : Except Pgp.Error α} {a : α} : lifted x = .ok a ↔ x = .ok a := by
  unfold lifted
  cases x <;> simp

theorem certificateChain_ok {order : Iteration} {head : Option SigningCertificate} {chain : Nat × Finset Placement}
    (h : Logged pgp blocks (db.log fingerprint) state)
    (hok : certificateChain order db fingerprint head = .ok chain) :
    chain = ((db.log fingerprint).length, state) := by
  have hsorted : orderBy (·.seq) (db.log fingerprint) = db.log fingerprint := by
    refine orderBy_of_pairwise ?_
    have hpairwise : ((db.log fingerprint).map (·.seq)).Pairwise (· ≤ ·) := by
      rw [h.seqs]
      exact List.pairwise_le_range'
    exact List.pairwise_map.1 hpairwise
  unfold certificateChain at hok
  rw [hsorted] at hok
  obtain ⟨-, hok⟩ := raiseIf_bind_eq_ok.1 hok
  obtain ⟨s, hfold, hok⟩ := bind_eq_ok hok
  have hstate : s = state := Except.ok.inj ((lifted_eq_ok.1 hfold).symm.trans (h.grows.fold order))
  subst hstate
  cases head with
  | none => exact (Except.ok.inj hok).symm
  | some head =>
    obtain ⟨-, hok⟩ := raiseIf_bind_eq_ok.1 hok
    obtain ⟨placements, -, hok⟩ := bind_eq_ok hok
    obtain ⟨-, hok⟩ := raiseIf_bind_eq_ok.1 hok
    exact (Except.ok.inj hok).symm

/-- A row that is appended is of the certificate and leads from the one state to the other. -/
private theorem appendCertificateRow_ok {seq : Nat} {operation : KeyOperation} {source : Str} {raw : Option Bytes}
    {previous result : Finset Placement}
    (hok : appendCertificateRow pgp call db fingerprint seq operation source raw previous result = .ok db') :
    OnlyLog fingerprint db db' ∧ ∃ row : KeyAttestable, row.seq = seq ∧ row.operation = operation ∧
      applyDelta call.order previous row.deletions row.additions = .ok result ∧
      db'.log fingerprint = db.log fingerprint ++ [row] := by
  unfold appendCertificateRow at hok
  obtain ⟨delta, -, hok⟩ := bind_eq_ok hok
  obtain ⟨applied, happly, hok⟩ := bind_eq_ok hok
  obtain ⟨hsame, hok⟩ := raiseIf_bind_eq_ok.1 hok
  obtain ⟨-, hok⟩ := raiseIf_bind_eq_ok.1 hok
  obtain rfl := Except.ok.inj hok
  rw [not_not.1 hsame] at happly
  refine ⟨⟨rfl, fun other hne => ?_⟩, ⟨fingerprint, seq, operation, source, raw, delta.1, delta.2, call.now, call.asfUid,
    call.role⟩, rfl, rfl, lifted_eq_ok.1 happly, ?_⟩
  · unfold Database.log
    rw [List.filter_append, List.filter_singleton, decide_eq_false hne.symm]
    exact List.append_nil _
  · unfold Database.log
    rw [List.filter_append, List.filter_singleton, decide_eq_true rfl]
    rfl

/-- An upload leaves a log that leads to its result. -/
theorem appendRevision_keeps {key : Key} {source : Str} {result : Finset Placement} {blocks' : List Str}
    {revised : Nat × Database} (h : Logged pgp blocks (db.log key.fingerprint) state) (hsub : state ⊆ result)
    (hmem : ∀ x, x ∈ result ↔ MergedPlacements pgp blocks' x) (hprimary : result = ∅ ∨ ∃ primary, State primary result)
    (hok : appendRevision pgp call db key source (db.log key.fingerprint).length state result = .ok revised) :
    OnlyLog key.fingerprint db revised.2 ∧ revised.1 = (revised.2.log key.fingerprint).length ∧
      Logged pgp blocks' (revised.2.log key.fingerprint) result ∧
      (LastDeleted (revised.2.log key.fingerprint) ↔ LastDeleted (db.log key.fingerprint)) ∧
      (db.log key.fingerprint ≠ [] ∨ result ≠ state → revised.2.log key.fingerprint ≠ []) := by
  unfold appendRevision at hok
  split_ifs at hok with hchanged
  · obtain ⟨db₁, happend, hok⟩ := bind_eq_ok hok
    obtain rfl := Except.ok.inj hok
    obtain ⟨honly, row, hseq, hoperation, happly, hlog⟩ := appendCertificateRow_ok happend
    refine ⟨honly, ?_, ?_, ?_, ?_⟩
    · rw [hlog, List.length_append, List.length_singleton]
    · rw [hlog]
      exact h.append hseq ⟨call.order, happly⟩ hsub hmem hprimary
    · rw [hlog]
      exact lastDeleted_revise hoperation
    · rw [hlog]
      simp
  · obtain rfl := Except.ok.inj hok
    obtain rfl := not_not.1 hchanged
    exact ⟨.refl _ _, rfl, { h with mem := hmem }, Iff.rfl, fun hrows => hrows.resolve_right (absurd rfl)⟩

/-- After an upload the last deletion is not later than the last restoration, if that was so for a certificate that is
not marked. -/
private theorem appendRestoration_keeps {key : Key} {deleted : Option Nat} {source : Str}
    (h : Logged pgp blocks (db.log key.fingerprint) state) (hdeleted : deleted.isSome ↔ LastDeleted (db.log key.fingerprint))
    (hok : appendRestoration pgp call db key deleted source (db.log key.fingerprint).length state = .ok db') :
    OnlyLog key.fingerprint db db' ∧ Logged pgp blocks (db'.log key.fingerprint) state ∧
      ¬ LastDeleted (db'.log key.fingerprint) ∧ (db.log key.fingerprint ≠ [] → db'.log key.fingerprint ≠ []) := by
  unfold appendRestoration at hok
  cases deleted with
  | none =>
    obtain rfl := Except.ok.inj hok
    exact ⟨.refl _ _, h, fun hlast => absurd (hdeleted.2 hlast) (by simp), id⟩
  | some since =>
    obtain ⟨honly, row, hseq, hoperation, happly, hlog⟩ := appendCertificateRow_ok hok
    rw [hlog]
    refine ⟨honly, h.append hseq ⟨call.order, happly⟩ subset_rfl h.mem h.primary, ?_, fun _ => by simp⟩
    refine not_lastDeleted_restore hoperation fun r hr => ?_
    rw [hseq]
    exact h.seq_lt hr

/-! ### Operations -/

theorem mergedPlacements_append {block : Str} {x : Placement} :
    MergedPlacements pgp (blocks ++ [block]) x ↔ MergedPlacements pgp blocks x ∨ (Placed block x ∧ Kept pgp x) := by
  unfold MergedPlacements
  simp only [List.mem_append, List.mem_singleton, or_and_right, exists_or, exists_eq_left]

private theorem headed_deleted {head : Option SigningCertificate} (h : Headed blocks rows state head) {block : Str}
    {changed : Bool} : (revisedHead head fingerprint block changed).deleted.isSome ↔ LastDeleted rows := by
  cases head with
  | none =>
    rw [h.2]
    simp [revisedHead, LastDeleted]
  | some head =>
    rw [← h.2.2]
    cases changed <;> rfl

/-- The certificate after an upload has a log, and a block with the placements of the result. -/
theorem headed_revised {head : Option SigningCertificate} (hlogged : Logged pgp blocks rows state)
    (h : Headed blocks rows state head) {result : Finset Placement} {x : Placement} (hx : x ∈ result) {block : Str}
    (hblock : certificatePlacements block = .ok result) :
    (rows ≠ [] ∨ result ≠ state) ∧
      certificatePlacements (revisedHead head fingerprint block (decide (result ≠ state))).asciiArmoredKey =
        .ok result := by
  cases head with
  | none =>
    refine ⟨.inr ?_, hblock⟩
    rintro rfl
    obtain ⟨⟨b, hb, -⟩, -⟩ := (hlogged.mem x).1 hx
    rw [h.1] at hb
    cases hb
  | some head =>
    refine ⟨.inl h.1, ?_⟩
    by_cases hsame : result = state
    · subst hsame
      simpa [revisedHead] using h.2.1
    · simpa [revisedHead, hsame] using hblock

/-- An upload keeps the chain, with one more block. -/
theorem reviseCertificate_keeps (harmor : armor.Lawful) {key : Key} {source : Str} {stored : KeyStatus × Database}
    (h : Chain pgp blocks (db.log key.fingerprint) (db.certificates.get key.fingerprint) state)
    (hok : reviseCertificate pgp armor call db key source = .ok stored) :
    (∃ result, Chain pgp (blocks ++ [key.asciiArmoredKey]) (stored.2.log key.fingerprint)
        (stored.2.certificates.get key.fingerprint) result) ∧
      ∀ other, other ≠ key.fingerprint → stored.2.log other = db.log other ∧
        stored.2.certificates.get other = db.certificates.get other := by
  unfold reviseCertificate at hok
  obtain ⟨chain, hchain, hok⟩ := bind_eq_ok hok
  obtain rfl := certificateChain_ok h.toLogged hchain
  obtain ⟨block, hblock, hok⟩ := bind_eq_ok hok
  obtain ⟨result, hresult, hok⟩ := bind_eq_ok hok
  obtain ⟨-, hok⟩ := raiseIf_bind_eq_ok.1 hok
  obtain ⟨revised, hrevised, hok⟩ := bind_eq_ok hok
  obtain ⟨restored, hrestored, hok⟩ := bind_eq_ok hok
  obtain rfl := Except.ok.inj hok
  obtain ⟨primary, _, result', _, hstate, hplacements, hmem, -⟩ :=
    mergedInto_spec harmor h.primary h.kept (lifted_eq_ok.1 hblock)
  obtain rfl := Except.ok.inj (hplacements.symm.trans (lifted_eq_ok.1 hresult))
  have hsub : state ⊆ result' := fun x hx => (hmem x).2 (.inl hx)
  have hmem' : ∀ x, x ∈ result' ↔ MergedPlacements pgp (blocks ++ [key.asciiArmoredKey]) x := fun x => by
    rw [hmem, mergedPlacements_append, h.mem]
  obtain ⟨honly, hseq, hlogged, hlast, hrows⟩ :=
    appendRevision_keeps h.toLogged hsub hmem' (.inr ⟨primary, hstate⟩) hrevised
  rw [hseq] at hrestored
  obtain ⟨honly', hlogged', hnot, hgrown⟩ :=
    appendRestoration_keeps hlogged ((headed_deleted h.headed).trans hlast.symm) hrestored
  have hframe := honly.trans honly'
  constructor
  · refine ⟨result', { hlogged' with headed := ?_ }⟩
    rw [Dict.get_set, if_pos rfl]
    obtain ⟨hnonempty, hhead⟩ := headed_revised h.toLogged h.headed hstate.holds hplacements
    exact ⟨hgrown (hrows hnonempty), hhead, fun hdeleted => absurd hdeleted (by simp), fun hdeleted => absurd hdeleted hnot⟩
  · intro other hne
    refine ⟨hframe.2 other hne, ?_⟩
    rw [Dict.get_set, if_neg hne, hframe.1]

/-- A deletion keeps the chain. -/
private theorem deleteCertificate_keeps {source : Str}
    (h : Chain pgp blocks (db.log fingerprint) (db.certificates.get fingerprint) state)
    (hok : deleteCertificate pgp call db fingerprint source = .ok db') :
    Chain pgp blocks (db'.log fingerprint) (db'.certificates.get fingerprint) state ∧
      ∀ other, other ≠ fingerprint → db'.log other = db.log other ∧
        db'.certificates.get other = db.certificates.get other := by
  unfold deleteCertificate at hok
  obtain ⟨certificate, hfound, hok⟩ := demand_bind_eq_ok.1 hok
  obtain ⟨hget, -⟩ := Option.filter_eq_some_iff.1 hfound
  obtain ⟨chain, hchain, hok⟩ := bind_eq_ok hok
  obtain rfl := certificateChain_ok h.toLogged hchain
  obtain ⟨db₁, happend, hok⟩ := bind_eq_ok hok
  obtain rfl := Except.ok.inj hok
  obtain ⟨honly, row, hseq, hoperation, happly, hlog⟩ := appendCertificateRow_ok happend
  have hlogged : Logged pgp blocks (db₁.log fingerprint) state := by
    rw [hlog]
    exact h.append hseq ⟨call.order, happly⟩ subset_rfl h.mem h.primary
  have hlast : LastDeleted (db₁.log fingerprint) := by
    rw [hlog]
    refine lastDeleted_delete hoperation fun r hr => ?_
    rw [hseq]
    exact h.seq_lt hr
  have hheaded := h.headed
  rw [hget] at hheaded
  constructor
  · refine { hlogged with headed := ?_ }
    rw [Dict.get_set, if_pos rfl]
    refine ⟨?_, hheaded.2.1, fun _ => hlast, fun _ => rfl⟩
    obtain ⟨r, hr, -⟩ := hlast
    exact List.ne_nil_of_mem hr
  · intro other hne
    refine ⟨honly.2 other hne, ?_⟩
    rw [Dict.get_set, if_neg hne, honly.1]

/-- Every certificate has the chain of the blocks that were uploaded for it. -/
def Holds (pgp : OpenPgp) (operations : List Operation) (db : Database) : Prop :=
  ∀ fingerprint, ∃ state,
    Chain pgp (uploaded fingerprint operations) (db.log fingerprint) (db.certificates.get fingerprint) state

private theorem uploaded_append (fingerprint : Str) (operations operations' : List Operation) :
    uploaded fingerprint (operations ++ operations') =
      uploaded fingerprint operations ++ uploaded fingerprint operations' := List.filterMap_append

theorem holds_empty (pgp : OpenPgp) : Holds pgp [] empty := fun _ =>
  ⟨∅, { Logged.nil pgp with headed := ⟨rfl, rfl⟩ }⟩

/-- An operation keeps the chains. -/
theorem Operation.run_keeps (harmor : armor.Lawful) {operations : List Operation} {operation : Operation}
    (h : Holds pgp operations db) (hok : operation.run pgp armor call db = .ok db') :
    Holds pgp (operations ++ [operation]) db' := by
  intro other
  rw [uploaded_append]
  cases operation with
  | upload key source =>
    obtain ⟨stored, hstored, hok⟩ := bind_eq_ok hok
    obtain rfl := Except.ok.inj hok
    obtain ⟨state, hchain⟩ := h key.fingerprint
    obtain ⟨⟨result, hresult⟩, hothers⟩ := reviseCertificate_keeps harmor hchain hstored
    by_cases hother : other = key.fingerprint
    · subst hother
      refine ⟨result, ?_⟩
      simpa [uploaded] using hresult
    · obtain ⟨hlog, hget⟩ := hothers other hother
      rw [hlog, hget]
      simpa [uploaded, Ne.symm hother] using h other
  | delete fingerprint source =>
    obtain ⟨state, hchain⟩ := h fingerprint
    obtain ⟨hkept, hothers⟩ := deleteCertificate_keeps hchain hok
    by_cases hother : other = fingerprint
    · subst hother
      refine ⟨state, ?_⟩
      simpa [uploaded] using hkept
    · obtain ⟨hlog, hget⟩ := hothers other hother
      rw [hlog, hget]
      simpa [uploaded] using h other

/-! ### Runs -/

private theorem Transaction.outcome_keeps (harmor : armor.Lawful) {operations : List Operation} {t : Transaction}
    (h : Holds pgp operations db) (hok : t.outcome pgp armor db = some db') :
    Holds pgp (operations ++ t.operations) db' := by
  unfold Transaction.outcome at hok
  split_ifs at hok
  refine foldlM_preserves (fun done s => Holds pgp (operations ++ done) s) (by simpa using h) ?_
    (toOption_eq_some.1 hok)
  intro done operation _ s s' _ hs hstep
  rw [← List.append_assoc]
  exact Operation.run_keeps harmor hs hstep

/-- Transactions keep the chains, committed or rolled back. -/
theorem run_keeps (harmor : armor.Lawful) {operations : List Operation} (ts : List Transaction)
    (h : Holds pgp operations db) : Holds pgp (operations ++ committed pgp armor db ts) (run pgp armor db ts) := by
  induction ts generalizing db operations with
  | nil => simpa [committed, run] using h
  | cons t ts ih =>
    unfold committed
    have hstep : Holds pgp (operations ++ if (t.outcome pgp armor db).isSome then t.operations else [])
        (t.run pgp armor db) := by
      unfold Transaction.run
      cases houtcome : t.outcome pgp armor db with
      | none => simpa using h
      | some after => simpa using Transaction.outcome_keeps harmor h houtcome
    rw [← List.append_assoc]
    exact ih hstep

/-- What holds of the log of a certificate and its stored head. -/
structure LogInvariant (order : Iteration) (rows : List KeyAttestable) (head : Option SigningCertificate) : Prop where
  numbered : rows.map (·.seq) = List.range' 1 rows.length
  folds : match head with
    | none => rows = []
    | some head => ∃ state, foldDeltas order (deltas rows) = .ok state ∧
        certificatePlacements head.asciiArmoredKey = .ok state
  grows : ∀ before row after, rows = before ++ row :: after →
    ∃ s s', foldDeltas order (deltas before) = .ok s ∧ foldDeltas order (deltas (before ++ [row])) = .ok s' ∧ s ⊆ s'
  deleted : ∀ c ∈ head, c.deleted.isSome ↔ LastDeleted rows

theorem Chain.invariant {head : Option SigningCertificate} (h : Chain pgp blocks rows head state) (order : Iteration) :
    LogInvariant order rows head where
  numbered := h.seqs
  folds := by
    have hheaded := h.headed
    cases head with
    | none => exact hheaded.2
    | some head => exact ⟨state, h.grows.fold order, hheaded.2.1⟩
  grows := by
    intro before row after hrows
    have hgrows := h.grows
    have hsplit : deltas rows = deltas before ++ ((row.deletions, row.additions) :: deltas after) := by
      rw [hrows]
      simp [deltas]
    rw [hsplit] at hgrows
    obtain ⟨s, hs, s', happly, hsub, -⟩ := grows_append.1 hgrows
    refine ⟨s, s', hs.fold order, ?_, hsub⟩
    have hboth : Grows ∅ (deltas (before ++ [row])) s' := by
      have hlast : deltas (before ++ [row]) = deltas before ++ [(row.deletions, row.additions)] := by simp [deltas]
      rw [hlast]
      exact grows_append.2 ⟨s, hs, s', happly, hsub, rfl⟩
    exact hboth.fold order
  deleted := by
    intro c hc
    have hheaded := h.headed
    rw [Option.mem_def.1 hc] at hheaded
    exact hheaded.2.2

/-- The placements of the stored block of a certificate, if there is one. -/
def headPlacements (db : Database) (fingerprint : Str) : Option (Except Pgp.Error (Finset Placement)) :=
  (db.certificates.get fingerprint).map fun head => certificatePlacements head.asciiArmoredKey

theorem certificatePlacements_nonempty {block : Str} {s : Finset Placement} (h : certificatePlacements block = .ok s) :
    s ≠ ∅ := by
  unfold certificatePlacements at h
  obtain ⟨data, -, h⟩ := bind_eq_ok h
  unfold fragmentPlacements at h
  obtain ⟨fs, -, h⟩ := bind_eq_ok h
  obtain ⟨-, h⟩ := raiseIf_bind_eq_ok.1 h
  cases fs with
  | nil => cases h
  | cons f fs =>
    obtain ⟨-, h⟩ := raiseIf_bind_eq_ok.1 h
    obtain ⟨-, h⟩ := raiseIf_bind_eq_ok.1 h
    obtain rfl := Except.ok.inj h
    simp

private theorem Chain.headPlacements
    (h : Chain pgp blocks (db.log fingerprint) (db.certificates.get fingerprint) state) :
    headPlacements db fingerprint = if state = ∅ then none else some (.ok state) := by
  have hheaded := h.headed
  unfold Keys.headPlacements
  cases hget : db.certificates.get fingerprint with
  | none =>
    rw [hget] at hheaded
    have hempty : state = ∅ := by
      refine Finset.eq_empty_of_forall_notMem fun x hx => ?_
      obtain ⟨⟨block, hblock, -⟩, -⟩ := (h.mem x).1 hx
      rw [hheaded.1] at hblock
      cases hblock
    rw [if_pos hempty]
    rfl
  | some head =>
    rw [hget] at hheaded
    rw [if_neg (certificatePlacements_nonempty hheaded.2.1), Option.map_some, hheaded.2.1]

/-- What was uploaded is in the stored block, without what is never kept. -/
theorem Chain.uploads (h : Chain pgp blocks (db.log fingerprint) (db.certificates.get fingerprint) state) {block : Str}
    (hblock : block ∈ blocks) : ∃ placements, Keys.headPlacements db fingerprint = some (.ok placements) ∧
      ∀ x, Placed block x → Kept pgp x → x ∈ placements := by
  have hheaded := h.headed
  unfold Keys.headPlacements
  cases hget : db.certificates.get fingerprint with
  | none =>
    rw [hget] at hheaded
    rw [hheaded.1] at hblock
    cases hblock
  | some head =>
    rw [hget] at hheaded
    rw [Option.map_some, hheaded.2.1]
    exact ⟨state, rfl, fun x hplaced hkept => (h.mem x).2 ⟨⟨block, hblock, hplaced⟩, hkept⟩⟩

/-- Every run of uploads and deletions keeps the log of every certificate: it is numbered, folds to the stored block, only
grows, and says whether the certificate is deleted.  The stored placements hold every block that was uploaded and depend
on the set of these blocks. -/
theorem certificateLog_invariant (harmor : armor.Lawful) (order : Iteration) (fingerprint : Str)
    (ts : List Transaction) :
    LogInvariant order ((run pgp armor empty ts).log fingerprint)
        ((run pgp armor empty ts).certificates.get fingerprint) ∧
      (∀ block ∈ uploaded fingerprint (committed pgp armor empty ts), ∃ placements,
        headPlacements (run pgp armor empty ts) fingerprint = some (.ok placements) ∧
          ∀ x, Placed block x → Kept pgp x → x ∈ placements) ∧
      ∀ ts', (∀ block, block ∈ uploaded fingerprint (committed pgp armor empty ts) ↔
          block ∈ uploaded fingerprint (committed pgp armor empty ts')) →
        headPlacements (run pgp armor empty ts) fingerprint = headPlacements (run pgp armor empty ts') fingerprint := by
  have hruns : ∀ us, ∃ state, Chain pgp (uploaded fingerprint (committed pgp armor empty us))
      ((run pgp armor empty us).log fingerprint) ((run pgp armor empty us).certificates.get fingerprint) state :=
    fun us => run_keeps harmor us (holds_empty pgp) fingerprint
  obtain ⟨state, hchain⟩ := hruns ts
  refine ⟨hchain.invariant order, fun block hblock => hchain.uploads hblock, fun ts' hblocks => ?_⟩
  obtain ⟨state', hchain'⟩ := hruns ts'
  have hstates : state = state' := by
    ext x
    rw [hchain.mem, hchain'.mem]
    unfold MergedPlacements
    simp only [hblocks]
  rw [hchain.headPlacements, hchain'.headPlacements, hstates]

/-! ### An upload, a deletion and another upload -/

def sampleCall : Call := ⟨sortedIteration, 1700000000, "alice".toList, .user⟩

def sampleKey (rest : List Frame) : Key := ⟨"ab".toList, sampleBlock rest, none⟩

/-- A certificate is uploaded and deleted, and comes back with a certification. -/
def sampleRun : List Transaction :=
  [⟨sampleCall, [.upload (sampleKey [sampleUserId]) "web:1".toList], false⟩,
    ⟨sampleCall, [.delete "ab".toList "web:2".toList], false⟩,
    ⟨sampleCall, [.upload (sampleKey [sampleUserId, sampleCertification]) "web:3".toList], false⟩]

theorem certificateLog_invariant_sampleRun :
    LogInvariant sortedIteration ((run samplePgp lineArmor empty sampleRun).log "ab".toList)
        ((run samplePgp lineArmor empty sampleRun).certificates.get "ab".toList) ∧
      (∀ block ∈ uploaded "ab".toList (committed samplePgp lineArmor empty sampleRun), ∃ placements,
        headPlacements (run samplePgp lineArmor empty sampleRun) "ab".toList = some (.ok placements) ∧
          ∀ x, Placed block x → Kept samplePgp x → x ∈ placements) ∧
      ∀ ts', (∀ block, block ∈ uploaded "ab".toList (committed samplePgp lineArmor empty sampleRun) ↔
          block ∈ uploaded "ab".toList (committed samplePgp lineArmor empty ts')) →
        headPlacements (run samplePgp lineArmor empty sampleRun) "ab".toList =
          headPlacements (run samplePgp lineArmor empty ts') "ab".toList :=
  certificateLog_invariant lineArmor_lawful sortedIteration "ab".toList sampleRun

end Keys

end TrustedReleases
