import TagCatalog.Proofs.Ascent
import TagCatalog.Proofs.Discovery

/-! The walk that looks for a category, beside the refresh of a reply chain. The two go through the same
contents whatever the parents of a ledger look like, and the walk finds a root just when the refresh
returns. -/

namespace TagCatalog

theorem Content.parent?_eq_none_iff {c : Content} : c.parent? = none ↔ c.isRoot = true := by
  simp [parent?]

namespace ContentSource

/-- The category walk, with a test for roots that may have effects of its own. -/
def categoryBy {m : Type → Type} [Monad m] (source : ContentSource) (isRoot : Content → m Bool) :
    (hops : Nat) → Content → m String
  | hops, c => do
    if ← isRoot c then return c.parentPermlink
    match hops with
    | 0 => return ""
    | hops + 1 =>
      match source.parent? c with
      | some parent => categoryBy source isRoot hops parent
      | none => return ""

/-- Test content for a root, and note that it was tested. -/
def noted (c : Content) : StateM (List Content) Bool := do
  modify (· ++ [c])
  return c.isRoot

theorem run_noted_bind {α : Type} (c : Content) (k : Bool → StateM (List Content) α)
    (tested : List Content) : (noted c >>= k).run tested = (k c.isRoot).run (tested ++ [c]) := rfl

theorem parent?_of_isRoot {source : ContentSource} {c : Content} (h : c.isRoot = true) :
    source.parent? c = none := by
  rw [parent?, Content.parent?_eq_none_iff.mpr h]
  rfl

variable (source : ContentSource) (hops : Nat) (c : Content)

/-- The contents that are tested for a root are those that a climb refreshes. -/
theorem run_categoryBy_noted (tested : List Content) :
    (source.categoryBy noted hops c).run tested =
      (source.categoryOf hops c, tested ++ source.ancestry hops c) := by
  induction hops generalizing c tested with
  | zero =>
    unfold categoryBy categoryOf ancestry
    rw [run_noted_bind]
    cases c.isRoot with
    | true => rfl
    | false => rfl
  | succ hops ih =>
    unfold categoryBy categoryOf ancestry
    rw [run_noted_bind]
    cases hroot : c.isRoot with
    | true =>
      rw [parent?_of_isRoot hroot]
      rfl
    | false =>
      cases source.parent? c with
      | none => rfl
      | some parent =>
        have hrest := ih parent (tested ++ [c])
        rw [List.append_assoc] at hrest
        exact hrest

/-- Whether the last content of a climb is a root decides both what stops it and what the category is. -/
theorem exists_getLast?_ancestry (s : Settings) : ∃ last,
    (source.ancestry hops c).getLast? = some last ∧
      (source.stop? s hops c = none ↔ last.isRoot = true) ∧
      source.categoryOf hops c = if last.isRoot then last.parentPermlink else "" := by
  induction hops generalizing c with
  | zero =>
    refine ⟨c, rfl, ?_, by rw [categoryOf]⟩
    rw [stop?, Option.map_eq_none_iff, Content.parent?_eq_none_iff]
  | succ hops ih =>
    unfold ancestry stop? categoryOf
    cases hparent : source.parent? c with
    | none =>
      refine ⟨c, rfl, ?_, rfl⟩
      rw [Option.map_eq_none_iff, Content.parent?_eq_none_iff]
    | some parent =>
      obtain ⟨last, hlast, hstop, hcategory⟩ := ih parent
      have hreply : ¬ c.isRoot = true := fun hroot => by
        cases (parent?_of_isRoot hroot).symm.trans hparent
      refine ⟨last, by simp [List.getLast?_cons, hlast], hstop, ?_⟩
      rw [if_neg hreply]
      exact hcategory

end ContentSource

/-- A climb of a sound catalog returns just when nothing stops it, and tells the contents it went
through. -/
theorem Catalog.yields_climb_stop {s : Settings} {source : ContentSource} {c : Catalog} (h : c.Sound)
    (hops : Nat) (content : Content) :
    Update.Yields (climb s source hops content) c
      (fun report _ => source.stop? s hops content = none ∧
        report.visited = (source.ancestry hops content).map (·.id))
      fun f _ => source.stop? s hops content = some f := by
  rw [climb_eq, Update.yields_bind]
  refine (yields_refreshPath h _).mono ?_ fun _ _ => False.elim
  intro counts d _
  cases source.stop? s hops content with
  | none => exact ⟨rfl, rfl⟩
  | some f => rfl

variable {s : Settings} {n : Node} {F : Filed} {c : Catalog}

/-- The refresh of stored content and the walk for its category go through the same contents, no more
than the limit and one, for any reachable catalog beside any ledger. If the refresh returns, the category
is that of the root it visited last; if it reports a fault there is none. -/
theorem Course.refresh_categoryOf (h : Course n F) (hc : c.Reachable) {a : Address} {start : Content}
    (hstart : n.ledger.at? a = some start) (hdepth : start.depth ≤ s.maxReplyDepth) :
    ∃ (path : List Content) (last : Content) (stop : Option Fault),
      path.length ≤ s.maxReplyDepth + 1 ∧ path.getLast? = some last ∧
      (∀ content ∈ path, n.ledger.byId? content.id = some content) ∧
      (n.ledger.source.categoryBy ContentSource.noted s.maxReplyDepth start).run [] =
        (n.ledger.source.categoryOf s.maxReplyDepth start, path) ∧
      Catalog.refresh s n.ledger.source a = (do
        let counts ← path.mapM (Catalog.refreshContent s)
        match stop with
        | some f => Update.fail f
        | none => return { refreshed := counts.sum, visited := path.map (·.id) }) ∧
      (stop = none ↔ last.isRoot = true) ∧
      (∀ report d, Catalog.refresh s n.ledger.source a c = .ok report d →
        report.visited.getLast? = some last.id ∧
          n.ledger.source.categoryOf s.maxReplyDepth start = last.parentPermlink) ∧
      ∀ f d, Catalog.refresh s n.ledger.source a c = .error (.fault f) d →
        n.ledger.source.categoryOf s.maxReplyDepth start = "" := by
  have hledger := h.holds.ledger
  have hclimbs := n.ledger.source.climbs_ancestry s s.maxReplyDepth start
  have hstored : ∀ p ∈ n.ledger.source.ancestry s.maxReplyDepth start,
      n.ledger.byId? p.id = some p := fun p hp =>
    hledger.stored_of_repliesTo (hledger.at?_eq_some.mp hstart).1
      (ContentSource.repliesTo_of_mem_ancestry hp)
  obtain ⟨last, hlast, hstop, hcategory⟩ :=
    n.ledger.source.exists_getLast?_ancestry s.maxReplyDepth start s
  have hclimb : Catalog.refresh s n.ledger.source a =
      Catalog.climb s n.ledger.source s.maxReplyDepth start := by
    rw [Catalog.refresh_eq hstart, Catalog.refreshUp, if_neg (Nat.not_lt.mpr hdepth)]
  rw [hclimb]
  refine ⟨_, last, _, hclimbs.length_le, hlast, hstored,
    n.ledger.source.run_categoryBy_noted s.maxReplyDepth start [], Catalog.climb_eq _ _, hstop, ?_, ?_⟩
  · intro report d hrun
    obtain ⟨hfree, hvisited⟩ := (Catalog.yields_climb_stop hc.sound _ start).of_ok hrun
    refine ⟨by simp [hvisited, hlast], ?_⟩
    rw [hcategory, if_pos (hstop.mp hfree)]
  · intro f d hrun
    have hfault := (Catalog.yields_climb_stop hc.sound _ start).of_fault hrun
    have hreply : ¬ last.isRoot = true := fun hroot => by
      cases (hstop.mpr hroot).symm.trans hfault
    rw [hcategory, if_neg hreply]

theorem Course.refresh_categoryOf_answerVoted :
    let m := Catalog.refresh {} answerVoted.ledger.source ⟨"bob", "answer"⟩
    ∃ F start last report d, Course answerVoted F ∧ Catalog.Reachable answerVoted.catalog ∧
      answerVoted.ledger.at? ⟨"bob", "answer"⟩ = some start ∧ start.depth ≤ ({} : Settings).maxReplyDepth ∧
      m answerVoted.catalog = .ok report d ∧ report.visited = [2, 1] ∧
      answerVoted.ledger.byId? 1 = some last ∧
      answerVoted.ledger.source.categoryOf ({} : Settings).maxReplyDepth start =
        last.parentPermlink ∧
      last.parentPermlink = "news" := by
  intro m
  obtain ⟨F, hF⟩ := exists_history_answerVoted
  have hdepth : (answerVoted.ledger.at? ⟨"bob", "answer"⟩).map (·.depth) = some 1 := by
    decide +kernel
  obtain ⟨start, hstart, hone⟩ := Option.map_eq_some_iff.mp hdepth
  have hle : start.depth ≤ ({} : Settings).maxReplyDepth := by rw [hone]; decide
  obtain ⟨path, last, stop, -, hlast, hstored, -, -, -, hok, -⟩ :=
    Course.refresh_categoryOf hF.course hF.reachable hstart hle
  have hreturns : Update.returns m answerVoted.catalog = true := by decide +kernel
  obtain ⟨report, hrun⟩ := Update.exists_ok_of_returns hreturns .empty
  obtain ⟨hend, hcategory⟩ := hok report _ hrun
  have hanswer : (Update.answer m answerVoted.catalog).toOption.map (·.visited) = some [2, 1] := by
    decide +kernel
  have hvisited : report.visited = [2, 1] := by
    simpa [Update.answer_of_ok hrun, Except.toOption] using hanswer
  have hid : last.id = 1 := by
    rw [hvisited] at hend
    exact (Option.some.inj hend).symm
  have hpost : answerVoted.ledger.byId? 1 = some last :=
    hid ▸ hstored last (List.mem_of_getLast? hlast)
  have hnews : (answerVoted.ledger.byId? 1).map (·.parentPermlink) = some "news" := by
    decide +kernel
  rw [hpost] at hnews
  exact ⟨F, start, last, report, _, hF.course, hF.reachable, hstart, hle, hrun, hvisited, hpost,
    hcategory, Option.some.inj hnews⟩

end TagCatalog
