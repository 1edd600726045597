import TagCatalog.Proofs.RepeatedRefresh
import TagCatalog.Proofs.Reachability

/-! A call of upkeep as the list of changes it makes, each to one entry and the totals it is part
of. Running the list does to a catalog what the call does, up to the same overflow. -/

namespace TagCatalog

namespace Catalog

/-- A change of one entry and of the totals it is part of. -/
inductive Change
  | file (e : Entry)
  | refresh (content : Content) (id : Nat)
  | withdraw (id : Nat)
  | credit (payout id : Nat)
  deriving DecidableEq

def Change.run (s : Settings) : Change → Update Catalog Unit
  | .file e => Catalog.file e
  | .refresh content id => refreshEntry s content id
  | .withdraw id => withdrawEntry id
  | .credit payout id => Catalog.credit payout id

def runAll (s : Settings) (changes : List Change) : Update Catalog Unit :=
  changes.forM (Change.run s)

section

variable (s : Settings) (source : ContentSource) (c : Catalog)

/-- Under a topic an entry that is kept is refreshed, and one is filed where there is none. -/
def placing (content : Content) (parent : Option Nat) (kept : List Entry) (t : Topic) : Change :=
  match kept.find? (·.topic = t) with
  | some e => .refresh content e.id
  | none => .file (.ofContent s t parent content)

def reclassifying (content : Content) : List Change :=
  let cl := source.classify s content
  let present := c.entriesOfContent content.id
  let parent := (source.parent? content).map (·.id)
  cl.topics.map (placing s content parent (present.filter (stays cl))) ++
    (present.filter (!stays cl ·)).map (.withdraw ·.id)

def classifying (a : Address) : List Change :=
  ((source.at? a).filter (admits source)).elim [] (c.reclassifying s source)

def refreshing (path : List Content) : List Change :=
  path.flatMap fun content => (c.table.idsOfContent content.id).map (.refresh content)

def withdrawing (a : Address) : List Change :=
  (source.at? a).elim [] fun content =>
    let gone := (c.table.idsOfContent content.id).map Change.withdraw
    gone ++ ((runAll s gone).left c).refreshing (source.pathAbove s content)

def sweeping (author : String) : List Change :=
  ((c.table.ofAuthor author).filter fun p => (source.byId? p.content).isNone).map (.withdraw ·.id)

def rewarding (a : Address) (payout : Nat) : List Change :=
  c.refreshing (source.pathAt s a) ++
    match source.refusal? s a with
    | some _ => []
    | none => (source.at? a).elim [] fun content =>
      (c.table.idsOfContent content.id).map (.credit payout)

/-- The changes that a call makes, in order. -/
def Call.changes : Call → List Change
  | .classify a => c.classifying s source a
  | .refresh a => c.refreshing (source.pathAt s a)
  | .withdraw a => c.withdrawing s source a
  | .withdrawEntry id => if (c.table.get? id).isSome then [.withdraw id] else []
  | .sweep author => c.sweeping source author
  | .reward a payout => c.rewarding s source a payout
  | .apply (.comment a _ _) => c.classifying s source a
  | .apply (.vote _ a _) => c.refreshing (source.pathAt s a)
  | .apply (.reward a payout) => c.rewarding s source a payout
  | .apply (.payoutUpdate a) =>
    if (source.at? a).any (·.isOpen) then c.refreshing (source.pathAt s a)
    else c.withdrawing s source a
  | .apply (.delete a) => c.sweeping source a.author
  | .apply (.transfer ..) | .apply .other => []

end

variable {s : Settings} {source : ContentSource} {c : Catalog}

theorem runAll_cons (change : Change) (changes : List Change) :
    runAll s (change :: changes) = (do change.run s; runAll s changes) := List.forM_cons

theorem runAll_singleton (change : Change) : runAll s [change] = change.run s := by
  simp [runAll]

theorem runAll_append (xs ys : List Change) :
    runAll s (xs ++ ys) = (do runAll s xs; runAll s ys) := List.forM_append

theorem runAll_map {β : Type} (f : β → Change) (l : List β) :
    runAll s (l.map f) = l.forM fun b => (f b).run s := List.forM_map

theorem requireEntry_of_some {id : Nat} {e : Entry} (he : c.table.get? id = some e) :
    requireEntry id c = .ok e c := by
  simp only [requireEntry, bind, EStateM.bind, get, getThe, MonadStateOf.get, EStateM.get, he]
  rfl

theorem settled_refreshContent (h : c.Sound) (content : Content) :
    Update.settled (refreshContent s content) c =
      runAll s ((c.table.idsOfContent content.id).map (.refresh content)) c := by
  have hall := yields_refreshAll (s := s) h content (c.table.idsOfContent content.id)
    (EntryTable.Coherent.nodup_idsOfContent _ _) fun _ => h.isSome_of_mem_idsOfContent
  have hcount := Update.settled_bind_idle (s := c)
    (m := (c.table.idsOfContent content.id).forM (refreshEntry s content))
    (k := fun _ => pure (c.table.idsOfContent content.id).length) fun _ _ => rfl
  rw [runAll_map]
  exact hcount.trans (Update.settled_of_yields hall)

theorem runAll_refreshing (h : c.Sound) (path : List Content) :
    runAll s (c.refreshing path) c = Update.settled (path.mapM (refreshContent s)) c := by
  induction path generalizing c with
  | nil => rfl
  | cons content path ih =>
    -- The ids are read anew at each content; those refreshed before it have the ids they had.
    have hrest : Update.Yields (refreshContent s content) c
        (fun count d => Update.settled (do
          let counts ← path.mapM (refreshContent s)
          pure (count :: counts)) d = runAll s (c.refreshing path) d) fun _ _ => False := by
      refine (yields_refreshContent h content).imp ?_
      intro count d hh
      obtain ⟨hd, hhere, -⟩ := hh
      have hsame : c.refreshing path = d.refreshing path := by
        simp only [refreshing, hhere.idsOfContent_eq h hd]
      rw [hsame, ih hd]
      exact Update.settled_bind_idle fun _ _ => rfl
    rw [List.mapM_cons, Update.settled_bind hrest, refreshing, List.flatMap_cons, runAll_append]
    simp only [bind, EStateM.bind, settled_refreshContent h]
    rfl

theorem runAll_refreshPath (h : c.Sound) (content : Content) :
    runAll s (c.refreshing (source.refreshPath s content)) c =
      Update.settled (refreshUp s source content) c := by
  unfold refreshUp ContentSource.refreshPath
  split
  · rfl
  · rw [runAll_refreshing h, climb_eq, Update.settled_bind_idle]
    intro counts d
    split <;> rfl

theorem runAll_pathAt (h : c.Sound) (a : Address) :
    runAll s (c.refreshing (source.pathAt s a)) c = Update.settled (refresh s source a) c := by
  cases ha : source.at? a with
  | none => simp only [ContentSource.pathAt, ha, refresh, ContentSource.require]; rfl
  | some content =>
    rw [refresh_eq ha, ← runAll_refreshPath h]
    simp [ContentSource.pathAt, ha]

theorem requireParent_eq {content : Content}
    (h : content.parent?.all fun b => (source.at? b).isSome) :
    requireParent source content = pure (source.parent? content) := by
  unfold requireParent ContentSource.parent?
  cases hparent : content.parent? with
  | none => rfl
  | some b =>
    rw [hparent] at h
    obtain ⟨parent, hp⟩ := Option.isSome_iff_exists.mp h
    simp [ContentSource.require, hp, Update.require]

theorem run_placing (content : Content) (parent : Option Nat) (kept : List Entry) (t : Topic) :
    (placing s content parent kept t).run s = place s content parent kept t := by
  unfold placing place
  cases kept.find? (·.topic = t) with
  | none => rfl
  | some e => rfl

theorem runAll_reclassifying (h : c.Sound) {a : Address} {content : Content}
    (hcontent : source.at? a = some content) (hadmits : admits source content = true) :
    runAll s (c.reclassifying s source content) c = Update.settled (classify s source a) c := by
  obtain ⟨hopen, hparent⟩ := Bool.and_eq_true_iff.mp hadmits
  have hread : ((c.table.idsOfContent content.id).mapM requireEntry : Update Catalog _) c =
      .ok (c.entriesOfContent content.id) c := by
    refine Update.mapM_read fun id hid => ?_
    obtain ⟨e, he, -⟩ := h.table.mem_idsOfContent.mp hid
    exact ⟨e, he, requireEntry_of_some he⟩
  obtain ⟨report, hrun⟩ : ∃ report, classify s source a c =
      (do runAll s (c.reclassifying s source content); pure report : Update Catalog Report) c := by
    simp only [classify, ContentSource.require, hcontent, Update.require, hopen, if_true,
      requireParent_eq hparent, pure_bind]
    apply Exists.intro
    refine (Update.bind_of_ok hread).trans ?_
    simp only [reclassifying, runAll_append, runAll_map, run_placing, bind_assoc]
    rfl
  have hfaultless : Update.Yields (runAll s (c.reclassifying s source content)) c
      (fun _ _ => True) fun _ _ => False := by
    refine Update.yields_of_ne_fault fun f d hd => ?_
    have hf : classify s source a c = .error (.fault f) d := by
      simp only [hrun, bind, EStateM.bind, hd]
    obtain ⟨-, hrefused⟩ := (yields_classify h a).of_fault hf
    exact not_refused hcontent hadmits hrefused
  rw [← Update.settled_of_yields hfaultless, ← Update.settled_bind_idle (k := fun _ => pure report)
    fun _ _ => rfl]
  simp only [Update.settled, hrun]

theorem runAll_classifying (h : c.Sound) (a : Address) :
    runAll s (c.classifying s source a) c = Update.settled (classify s source a) c := by
  unfold classifying
  cases hcontent : source.at? a with
  | none =>
    simp only [classify, ContentSource.require, hcontent]
    rfl
  | some content =>
    cases hadmits : admits source content with
    | true =>
      rw [Option.filter_some_pos hadmits]
      exact runAll_reclassifying h hcontent hadmits
    | false =>
      obtain ⟨f, hf⟩ := exists_fault_of_not_admits (s := s) (c := c) hcontent hadmits
      rw [Option.filter_some_neg hadmits, Update.settled, hf]
      rfl

theorem runAll_above (h : c.Sound) (content : Content) (gone : Report) :
    runAll s (c.refreshing (source.pathAbove s content)) c = Update.settled (do
      match ← requireParent source content with
      | none => return gone
      | some parent => return gone.merge (← refreshUp s source parent)) c := by
  unfold ContentSource.pathAbove ContentSource.parent? requireParent
  cases hparent : content.parent? with
  | none => rfl
  | some b =>
    cases hb : source.at? b with
    | none =>
      simp only [Option.bind_some, hb, ContentSource.require]
      rfl
    | some parent =>
      simp only [Option.bind_some, hb, ContentSource.require, Update.require, pure_bind,
        Option.elim_some]
      rw [runAll_refreshPath h, Update.settled_bind_idle fun _ _ => rfl]

theorem runAll_withdrawing (h : c.Sound) (a : Address) :
    runAll s (c.withdrawing s source a) c = Update.settled (withdraw s source a) c := by
  unfold withdrawing
  cases hcontent : source.at? a with
  | none =>
    simp only [withdraw, ContentSource.require, hcontent]
    rfl
  | some content =>
    have hgone := yields_withdrawAll h (fun id => id) (c.table.idsOfContent content.id)
      (by simpa using EntryTable.Coherent.nodup_idsOfContent _ _)
      fun _ => h.isSome_of_mem_idsOfContent
    -- What is refreshed above is read once the entries are gone, which the list has to foresee.
    let gone : Report := { removed := (c.table.idsOfContent content.id).length }
    have habove : Update.Yields ((c.table.idsOfContent content.id).forM withdrawEntry) c
        (fun _ t => Update.settled (do
          match ← requireParent source content with
          | none => return gone
          | some parent => return gone.merge (← refreshUp s source parent)) t =
          runAll s (((runAll s ((c.table.idsOfContent content.id).map .withdraw)).left c).refreshing
            (source.pathAbove s content)) t) fun _ _ => False := by
      refine (hgone.and (Update.yields_self _ _)).mono ?_ fun _ _ hh => hh.1
      intro _ t hh
      obtain ⟨⟨ht, -⟩, hrun⟩ := hh
      have hleft : (runAll s ((c.table.idsOfContent content.id).map .withdraw)).left c = t := by
        rw [runAll_map]
        simp only [Update.left, Change.run, hrun]
      rw [hleft, runAll_above ht]
    simp only [withdraw, ContentSource.require, hcontent, Update.require, pure_bind]
    refine Eq.trans ?_ (Update.settled_bind habove).symm
    rw [Option.elim_some, runAll_append, runAll_map]
    simp only [bind, EStateM.bind, Update.settled_of_yields hgone]
    rfl

theorem runAll_sweeping (h : c.Sound) (author : String) :
    runAll s (c.sweeping source author) c = Update.settled (sweep source author) c := by
  have hlive : ∀ p ∈ (c.table.ofAuthor author).filter fun p => (source.byId? p.content).isNone,
      (c.table.get? p.id).isSome := by
    intro p hp
    obtain ⟨e, he, -⟩ := (mem_orphans h).mp (List.mem_map_of_mem hp)
    simp [he]
  have hall := yields_withdrawAll h AuthorPlace.id _ (nodup_orphans h author) hlive
  rw [sweeping, runAll_map]
  exact (Update.settled_of_yields hall).symm.trans (Update.settled_bind_idle fun _ _ => rfl).symm

theorem runAll_crediting (h : c.Sound) (content payout : Nat) (report : Report) :
    runAll s ((c.table.idsOfContent content).map (.credit payout)) c = Update.settled (do
      ((← get).table.idsOfContent content).forM (credit payout)
      return report) c := by
  have hall := yields_creditAll h payout (c.table.idsOfContent content) fun _ =>
    h.isSome_of_mem_idsOfContent
  rw [runAll_map]
  exact (Update.settled_of_yields hall).symm.trans (Update.settled_bind_idle fun _ _ => rfl).symm

theorem runAll_rewarding (h : c.Sound) (a : Address) (payout : Nat) :
    runAll s (c.rewarding s source a payout) c = Update.settled (reward s source a payout) c := by
  have hanswer : Update.Yields (refresh s source a) c (fun _ _ => source.refusal? s a = none)
      fun f _ => source.refusal? s a = some f := yields_refresh_refusal h a
  unfold rewarding reward
  cases hrefusal : source.refusal? s a with
  | some f =>
    simp only [hrefusal, reduceCtorEq] at hanswer
    dsimp only
    rw [List.append_nil, runAll_pathAt h]
    exact (Update.settled_bind_of_ne_ok fun r d hd => hanswer.of_ok hd).symm
  | none =>
    simp only [hrefusal, reduceCtorEq] at hanswer
    cases hcontent : source.at? a with
    | none => simp [ContentSource.refusal?, hcontent] at hrefusal
    | some content =>
      simp only [ContentSource.require, hcontent, Update.require, pure_bind, Option.elim_some]
      have hcredits : Update.Yields (refresh s source a) c
          (fun report d => Update.settled (do
            ((← get).table.idsOfContent content.id).forM (credit payout)
            return report) d = runAll s ((c.table.idsOfContent content.id).map (.credit payout)) d)
          fun _ _ => False := by
        refine ((yields_refresh h a).and hanswer).mono ?_ fun _ _ hh => hh.2
        intro report d hh
        obtain ⟨⟨hd, hpath, -⟩, -⟩ := hh
        rw [← hpath.idsOfContent_eq h hd, runAll_crediting hd]
      rw [Update.settled_bind hcredits, runAll_append]
      simp only [bind, EStateM.bind, runAll_pathAt h]

theorem runAll_applying (h : c.Sound) (op : Operation) :
    runAll s (Call.changes s source c (.apply op)) c = Update.settled (apply s source op) c := by
  cases op with
  | comment a _ _ =>
    cases hcontent : source.at? a with
    | none =>
      simp only [apply, ContentSource.require, hcontent, Call.changes, classifying]
      rfl
    | some content =>
      simp only [apply, ContentSource.require, hcontent, Update.require, pure_bind]
      by_cases hopen : content.isOpen = true
      · rw [if_pos hopen, ← runAll_classifying h, Call.changes]
      · rw [if_neg hopen, Call.changes, classifying, hcontent,
          Option.filter_some_neg (by simp [admits, hopen])]
        rfl
  | vote _ a _ => rw [apply, ← runAll_pathAt h, Call.changes]
  | reward a payout => rw [apply, ← runAll_rewarding h, Call.changes]
  | payoutUpdate a =>
    cases hcontent : source.at? a with
    | none =>
      simp only [apply, ContentSource.require, hcontent, Call.changes, withdrawing]
      rfl
    | some content =>
      simp only [apply, ContentSource.require, hcontent, Update.require, pure_bind, Call.changes,
        Option.any_some]
      by_cases hopen : content.isOpen = true
      · rw [if_pos hopen, if_pos hopen, ← runAll_pathAt h]
      · rw [if_neg hopen, if_neg hopen, ← runAll_withdrawing h]
  | delete a => rw [apply, ← runAll_sweeping h, Call.changes]
  | transfer => rfl
  | other => rfl

/-- The changes of a call do what the call does. -/
theorem Call.runAll_changes (h : c.Sound) (s : Settings) (source : ContentSource) (call : Call) :
    runAll s (call.changes s source c) c = Update.settled (call.run s source) c := by
  have hanswer {α : Type} (m : Update Catalog α) :
      Update.settled (do let _ ← m : Update Catalog Unit) c = Update.settled m c :=
    Update.settled_bind_idle fun _ _ => rfl
  cases call with
  | classify a => rw [run, hanswer, ← runAll_classifying h, changes]
  | refresh a => rw [run, hanswer, ← runAll_pathAt h, changes]
  | withdraw a => rw [run, hanswer, ← runAll_withdrawing h, changes]
  | withdrawEntry id =>
    cases he : c.table.get? id with
    | none =>
      simp [changes, run, he, runAll, Update.settled, withdrawEntry_of_none he, pure, EStateM.pure]
    | some e =>
      have hall := yields_withdrawEntry h he
      rw [run, Update.settled_of_yields hall]
      simp [changes, he, runAll, Change.run]
  | sweep author => rw [run, hanswer, ← runAll_sweeping h, changes]
  | reward a payout => rw [run, hanswer, ← runAll_rewarding h, changes]
  | apply op =>
    rw [run, hanswer]
    exact runAll_applying h op

end Catalog

end TagCatalog
