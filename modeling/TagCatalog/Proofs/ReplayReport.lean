import TagCatalog.Proofs.ReportBalance

/-! The report of a replay. It is made of the reports of the operations on the lines of the file, in
their order, and what it counts is what the catalog holds in the end. -/

namespace TagCatalog

/-- Events carried out one after the other, none of which fails, with the reports of the operations
among them. -/
inductive Node.Replays (s : Settings) : Node → List Event → List Report → Node → Prop
  | done (n : Node) : Replays s n [] [] n
  | upsert {n n' : Node} {events : List Event} {reports : List Report} {content : Content} {id : Nat}
    {l : Ledger} (h : Ledger.upsert content n.ledger = .ok id l)
    (hrest : Replays s { n with ledger := l } events reports n') :
    Replays s n (.upsert content :: events) reports n'
  | remove {n n' : Node} {events : List Event} {reports : List Report} {a : Address}
    {content : Content} {l : Ledger} (h : Ledger.remove a n.ledger = .ok content l)
    (hrest : Replays s { n with ledger := l } events reports n') :
    Replays s n (.remove a :: events) reports n'
  | op {n n' : Node} {events : List Event} {reports : List Report} {op : Operation} {r : Report}
    {c : Catalog} (h : Catalog.apply s n.ledger.source op n.catalog = .ok r c)
    (hrest : Replays s { n with catalog := c } events reports n') :
    Replays s n (.op op :: events) (r :: reports) n'

variable {s : Settings} {n m n' : Node} {events events' : List Event} {reports reports' : List Report}

theorem Node.Replays.append (h : Replays s n events reports m)
    (h' : Replays s m events' reports' n') :
    Replays s n (events ++ events') (reports ++ reports') n' := by
  induction h with
  | done _ => exact h'
  | upsert hwrite _ ih => exact .upsert hwrite (ih h')
  | remove hwrite _ ih => exact .remove hwrite (ih h')
  | op happly _ ih => exact .op happly (ih h')

theorem Node.Replays.balanced (h : Replays s n events reports n') (hn : n.catalog.Sound) :
    n'.catalog.Sound ∧
      n'.catalog.table.nextId = n.catalog.table.nextId + (reports.map (·.created)).sum ∧
      n'.catalog.table.size + (reports.map (·.removed)).sum =
        n.catalog.table.size + (reports.map (·.created)).sum := by
  induction h with
  | done n => exact ⟨hn, rfl, rfl⟩
  | upsert _ _ ih => exact ih hn
  | remove _ _ ih => exact ih hn
  | op happly _ ih =>
    obtain ⟨hc, hbalances, hnext⟩ := (Catalog.yields_apply_balances hn _).of_ok happly
    obtain ⟨hsound, hnext', hsize'⟩ := ih hc
    have hsize := hbalances.size
    simp only [List.map_cons, List.sum_cons] at hnext' hsize' ⊢
    exact ⟨hsound, by omega, by omega⟩

theorem Report.foldl_merge (reports : List Report) (r : Report) :
    reports.foldl Report.merge r =
      { created := r.created + (reports.map (·.created)).sum
        refreshed := r.refreshed + (reports.map (·.refreshed)).sum
        removed := r.removed + (reports.map (·.removed)).sum
        visited := r.visited ++ reports.flatMap (·.visited) } := by
  induction reports generalizing r with
  | nil => simp
  | cons r' reports ih =>
    rw [List.foldl_cons, ih]
    simp [Report.merge, Nat.add_assoc]

namespace Replay

variable {r : Replay}

def node (r : Replay) : Node := ⟨r.ledger, r.catalog⟩

theorem yields_step_replays (event : Event) :
    Update.Yields (step s event) r (fun _ r' => ∃ reports,
      Node.Replays s r.node [event] reports r'.node ∧ r'.report = reports.foldl Report.merge r.report)
      fun _ _ => True := by
  cases event with
  | upsert content =>
    simp only [step, onLedger, Update.yields_bind, Update.yields_modify, Update.yields_pure,
      Update.yields_within]
    refine (Update.yields_self _ r.ledger).mono (fun id l h => ?_) fun _ _ _ => trivial
    exact ⟨[], .upsert h (.done _), rfl⟩
  | remove a =>
    simp only [step, onLedger, Update.yields_bind, Update.yields_modify, Update.yields_pure,
      Update.yields_within]
    refine (Update.yields_self _ r.ledger).mono (fun content l h => ?_) fun _ _ _ => trivial
    exact ⟨[], .remove h (.done _), rfl⟩
  | op op =>
    simp only [step, onCatalog, Update.yields_bind, Update.yields_modify, Update.yields_get,
      Update.yields_within]
    refine (Update.yields_self _ r.catalog).mono (fun report c h => ?_) fun _ _ _ => trivial
    exact ⟨[report], .op h (.done _), rfl⟩

theorem yields_runLines_replays (lines : List (List UInt8)) :
    Update.Yields (runLines s lines) r (fun _ r' => ∃ events reports,
      events? lines = some events ∧ Node.Replays s r.node events reports r'.node ∧
      r'.report = reports.foldl Report.merge r.report)
      fun _ _ => True := by
  -- The report so far is part of the state, so that the rest of the lines goes on from it.
  induction lines generalizing r with
  | nil => exact ⟨[], [], rfl, .done _, rfl⟩
  | cons bytes rest ih =>
    unfold runLines events?
    split
    · trivial
    rename_i text htext
    rw [line_eq, htext, Option.bind_some]
    cases lineEvent? text with
    | none => trivial
    | some event? =>
      cases event? with
      | none =>
        rw [pure_bind]
        refine ih.mono (fun _ r' hh => ?_) fun _ _ _ => trivial
        obtain ⟨events, reports, hevents, hrest⟩ := hh
        exact ⟨events, reports, by simp [hevents], hrest⟩
      | some event =>
        rw [Update.yields_bind]
        refine (yields_step_replays event).imp fun _ between hh => ?_
        obtain ⟨reports, hstep, hreport⟩ := hh
        refine ih.mono (fun _ r' hh => ?_) fun _ _ _ => trivial
        obtain ⟨events, reports', hevents, hrest, hreport'⟩ := hh
        refine ⟨event :: events, reports ++ reports', by simp [hevents], hstep.append hrest, ?_⟩
        rw [hreport', hreport, List.foldl_append]

theorem replays_of_run {bytes : ByteArray} (h : run s bytes = .ok r) : ∃ events reports,
    events? (lines bytes) = some events ∧ Node.Replays s {} events reports r.node ∧
    r.report = reports.foldl Report.merge {} := by
  unfold run at h
  split at h
  · rename_i r' hr
    obtain rfl := Except.ok.inj h
    exact (yields_runLines_replays (lines bytes)).of_ok hr
  · exact nomatch h

end Replay

/-- Every report balances: that of an operation against the catalogs before and after it, and that of a
file against the catalog that the file leaves behind. -/
theorem Report.balance :
    (∀ c, Catalog.Reachable c → ∀ s source op r d, Catalog.apply s source op c = .ok r d →
      r.Balances c d) ∧
    ∀ s bytes r, Replay.run s bytes = .ok r → ∃ events reports,
      Replay.events? (Replay.lines bytes) = some events ∧
      Node.Replays s {} events reports ⟨r.ledger, r.catalog⟩ ∧
      r.report.created = r.report.removed + r.catalog.table.size ∧
      (∀ id e, r.catalog.table.get? id = some e → id < r.report.created) ∧
      r.report.visited = reports.flatMap (·.visited) := by
  constructor
  · intro c h s source op r d hrun
    exact ((Catalog.yields_apply_balances h.sound op).of_ok hrun).2.1
  · intro s bytes r hrun
    obtain ⟨events, reports, hevents, hreplays, hreport⟩ := Replay.replays_of_run hrun
    obtain ⟨hsound, hnext, hsize⟩ := hreplays.balanced Catalog.Sound.empty
    have hnone : ({} : Node).catalog.table.nextId = 0 := rfl
    have hempty : ({} : Node).catalog.table.size = 0 := rfl
    change r.catalog.table.nextId = _ at hnext
    change r.catalog.table.size + _ = _ at hsize
    rw [Report.foldl_merge] at hreport
    refine ⟨events, reports, hevents, hreplays, ?_, fun id e he => ?_, ?_⟩
    · rw [hreport]
      simp only [Nat.zero_add]
      omega
    · have hlt : id < r.catalog.table.nextId := hsound.table.lt_nextId id e he
      rw [hreport]
      simp only [Nat.zero_add]
      omega
    · rw [hreport, List.nil_append]

/-- An edit that makes, refreshes and withdraws entries in one call, and a whole file. -/
theorem Report.balance_artRewritten :
    (∃ r d, Catalog.Reachable artRewritten.catalog ∧
      Catalog.apply {} artRewritten.ledger.source (.comment ⟨"alice", "morning"⟩ "" "news")
        artRewritten.catalog = .ok r d ∧
      r.Balances artRewritten.catalog d ∧ r = ⟨2, 1, 1, [1]⟩) ∧
    ∃ r, Replay.run {} answerFile = .ok r ∧ r.report = ⟨3, 5, 1, [1, 2, 2, 1, 1]⟩ ∧
      ∃ events reports, Replay.events? (Replay.lines answerFile) = some events ∧
      Node.Replays {} {} events reports ⟨r.ledger, r.catalog⟩ ∧
      r.report.created = r.report.removed + r.catalog.table.size ∧
      (∀ id e, r.catalog.table.get? id = some e → id < r.report.created) ∧
      r.report.visited = reports.flatMap (·.visited) := by
  obtain ⟨hoperation, hfile⟩ := Report.balance
  constructor
  · obtain ⟨F, hF⟩ := exists_history_artRewritten
    have hreport : (Update.answer (Catalog.apply {} artRewritten.ledger.source
        (.comment ⟨"alice", "morning"⟩ "" "news")) artRewritten.catalog).toOption =
        some ⟨2, 1, 1, [1]⟩ := by decide +kernel
    cases hrun : Catalog.apply {} artRewritten.ledger.source
        (.comment ⟨"alice", "morning"⟩ "" "news") artRewritten.catalog with
    | error halt d =>
      rw [Update.answer, hrun] at hreport
      cases hreport
    | ok r d =>
      rw [Update.answer_of_ok hrun] at hreport
      exact ⟨r, d, hF.reachable, rfl, hoperation _ hF.reachable _ _ _ _ _ hrun,
        Option.some.inj hreport⟩
  · have hreport : (Replay.run {} answerFile).toOption.map (·.report) =
        some ⟨3, 5, 1, [1, 2, 2, 1, 1]⟩ := by
      rw [Replay.run_of_events events?_answerFile]
      decide +kernel
    cases hrun : Replay.run {} answerFile with
    | error halt =>
      rw [hrun] at hreport
      cases hreport
    | ok r =>
      rw [hrun] at hreport
      exact ⟨r, rfl, Option.some.inj hreport, hfile _ _ _ hrun⟩

end TagCatalog
