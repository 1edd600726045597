import TagCatalog.Proofs.Discovery

/-! What a query answers from any catalog that upkeep leads to, beside any content: the first of what
qualifies now, each content at the place of its best candidate. -/

namespace TagCatalog

namespace Query

open SortOrder

variable {q : Query} {s : Settings} {source : ContentSource} {c : Catalog} {order : SortOrder}

/-- The topics whose listings supply candidates. -/
inductive LooksUnder (q : Query) (c : Catalog) : Topic → Prop
  | tag {name : String} (hname : name ∈ q.selectTags) : LooksUnder q c (.tag name)
  | language {name : String} (htags : ∀ tag, tag ∉ q.selectTags)
      (hname : name ∈ q.selectLanguages) : LooksUnder q c (.language name)
  | row {name : String} (htags : ∀ tag, tag ∉ q.selectTags)
      (hlanguages : ∀ language, language ∉ q.selectLanguages)
      (hrow : (c.totals.topic? (.tag name)).isSome) : LooksUnder q c (.tag name)

structure Candidate (q : Query) (c : Catalog) (e : Entry) : Prop where
  live : ∃ id, c.table.get? id = some e
  number : e.hot.isNaN = false
  topic : q.LooksUnder c e.topic

/-- A candidate of a content that no other candidate of it is above. -/
structure Best (q : Query) (c : Catalog) (order : SortOrder) (content : Nat) (e : Entry) :
    Prop where
  candidate : q.Candidate c e
  content_eq : e.content = content
  highest : ∀ a, q.Candidate c a → a.content = content → ¬ order.Above a e

/-- A best candidate of the one content is ahead of a best one of the other. -/
def Outranks (q : Query) (c : Catalog) (order : SortOrder) (a b : Nat) : Prop :=
  ∃ e f, q.Best c order a e ∧ q.Best c order b f ∧ order.Ahead e f

/-- A candidate content that is there still and whose metadata now suits the query. -/
def Qualifies (q : Query) (s : Settings) (source : ContentSource) (c : Catalog) (id : Nat) : Prop :=
  (∃ e, q.Candidate c e ∧ e.content = id) ∧
    ∃ content, source.byId? id = some content ∧ q.Suits (source.classify s content)

/-- The first contents that qualify, and none that comes after one left out. -/
structure Answers (q : Query) (s : Settings) (source : ContentSource) (c : Catalog)
    (order : SortOrder) (ids : List Nat) : Prop where
  first : ∃ all : List Nat, (∀ id, id ∈ all ↔ q.Qualifies s source c id) ∧
    all.Pairwise (q.Outranks c order) ∧ ids = all.take q.limit
  qualifies : ∀ id ∈ ids, q.Qualifies s source c id
  nodup : ids.Nodup
  length_le : ids.length ≤ min q.limit maxLimit
  outranks : ∀ id, q.Qualifies s source c id → id ∉ ids → ∀ a ∈ ids, q.Outranks c order a id

/-! ## Candidates -/

theorem selectsTags_eq_false : q.selectsTags = false ↔ ∀ tag, tag ∉ q.selectTags := by
  rw [selectsTags, Bool.not_eq_false', Std.ExtTreeSet.isEmpty_iff,
    Std.ExtTreeSet.eq_empty_iff_forall_not_mem]

theorem selectsLanguages_eq_false :
    q.selectsLanguages = false ↔ ∀ language, language ∉ q.selectLanguages := by
  rw [selectsLanguages, Bool.not_eq_false', Std.ExtTreeSet.isEmpty_iff,
    Std.ExtTreeSet.eq_empty_iff_forall_not_mem]

theorem mem_topics_iff (h : c.Sound) {topic : Topic} :
    topic ∈ q.topics c ↔ q.LooksUnder c topic := by
  unfold topics
  cases htags : q.selectsTags with
  | true =>
    have hsome : ¬ ∀ tag, tag ∉ q.selectTags := by simp [← selectsTags_eq_false, htags]
    simp only [if_true, List.mem_map, Std.ExtTreeSet.mem_toList]
    constructor
    · intro hh
      obtain ⟨name, hname, rfl⟩ := hh
      exact .tag hname
    · intro hh
      cases hh with
      | tag hname => exact ⟨_, hname, rfl⟩
      | language hnone => exact absurd hnone hsome
      | row hnone => exact absurd hnone hsome
  | false =>
    have hnone := selectsTags_eq_false.mp htags
    cases hlanguages : q.selectsLanguages with
    | true =>
      have hsome : ¬ ∀ language, language ∉ q.selectLanguages := by
        simp [← selectsLanguages_eq_false, hlanguages]
      simp only [Bool.false_eq_true, if_false, if_true, List.mem_map, Std.ExtTreeSet.mem_toList]
      constructor
      · intro hh
        obtain ⟨name, hname, rfl⟩ := hh
        exact .language hnone hname
      · intro hh
        cases hh with
        | tag hname => exact absurd hname (hnone _)
        | language _ hname => exact ⟨_, hname, rfl⟩
        | row _ hnone' => exact absurd hnone' hsome
    | false =>
      have hnone' := selectsLanguages_eq_false.mp hlanguages
      simp only [Bool.false_eq_true, if_false, List.mem_filter, h.mem_topicRows, decide_eq_true_eq]
      constructor
      · intro hh
        obtain ⟨hrow, hkind⟩ := hh
        obtain ⟨kind, name⟩ := topic
        obtain rfl := hkind
        exact .row hnone hnone' hrow
      · intro hh
        cases hh with
        | tag hname => exact absurd hname (hnone _)
        | language _ hname => exact absurd hname (hnone' _)
        | row _ _ hrow => exact ⟨hrow, rfl⟩

theorem mem_candidates_iff (h : Catalog.Reachable c) {e : Entry} :
    e ∈ q.candidates c order ↔ q.Candidate c e := by
  rw [candidates, List.mem_mergeSort, h.sound.table.mem_flatMap_hot, mem_topics_iff h.sound]
  constructor
  · intro hh
    obtain ⟨⟨id, he⟩, htopic, hle⟩ := hh
    exact ⟨⟨id, he⟩, (h.scored id e he).rank_hot_le_infinity_iff.mp hle, htopic⟩
  · intro hh
    obtain ⟨⟨id, he⟩, hnumber, htopic⟩ := hh
    exact ⟨⟨id, he⟩, htopic, Score.rank_le_infinity hnumber⟩

/-! ## Each content at its first candidate -/

/-- What is picked from sorted candidates is the content of some of them in their order, each before
all others of its content. -/
theorem exists_leaders (admits : Nat → Bool) (seen : List Nat) {es : List Entry}
    {R : Entry → Entry → Prop} (h : es.Pairwise R) :
    ∃ leaders : List Entry, leaders.Sublist es ∧
      distinct admits seen es = leaders.map (·.content) ∧
      ∀ e ∈ leaders, ∀ a ∈ es, a.content = e.content → a = e ∨ R e a := by
  induction es generalizing seen with
  | nil => exact ⟨[], .slnil, rfl, by simp⟩
  | cons e es ih =>
    obtain ⟨he, hes⟩ := List.pairwise_cons.mp h
    -- A leader of the rest has content that was not seen before, and so not that of the head.
    have hskip {seen' : List Nat} (hseen : e.content ∈ seen') {leaders : List Entry}
        (hcontents : distinct admits seen' es = leaders.map (·.content))
        (hfirst : ∀ b ∈ leaders, ∀ a ∈ es, a.content = b.content → a = b ∨ R b a) :
        ∀ b ∈ leaders, ∀ a ∈ e :: es, a.content = b.content → a = b ∨ R b a := by
      intro b hb a ha hab
      rcases List.mem_cons.mp ha with rfl | ha
      · have hmem : b.content ∈ distinct admits seen' es :=
          hcontents ▸ List.mem_map_of_mem hb
        exact absurd (hab ▸ hseen) (mem_distinct.mp hmem).2.1
      · exact hfirst b hb a ha hab
    unfold distinct
    split
    · rename_i hseen
      obtain ⟨leaders, hsub, hcontents, hfirst⟩ := ih seen hes
      exact ⟨leaders, hsub.cons e, hcontents,
        hskip (List.contains_iff_mem.mp hseen) hcontents hfirst⟩
    · obtain ⟨leaders, hsub, hcontents, hfirst⟩ := ih (e.content :: seen) hes
      have hrest := hskip List.mem_cons_self hcontents hfirst
      split
      · refine ⟨e :: leaders, hsub.cons_cons e, by rw [hcontents, List.map_cons], ?_⟩
        intro b hb a ha hab
        rcases List.mem_cons.mp hb with rfl | hb
        · rcases List.mem_cons.mp ha with rfl | ha
          · exact .inl rfl
          · exact .inr (he a ha)
        · exact hrest b hb a ha hab
      · exact ⟨leaders, hsub.cons e, hcontents, hrest⟩

theorem pairwise_distinct (h : Catalog.Reachable c) (admits : Nat → Bool) :
    (distinct admits [] (q.candidates c order)).Pairwise (q.Outranks c order) := by
  have hsorted : (q.candidates c order).Pairwise fun a b =>
      before (order.key a, a.content) (order.key b, b.content) = true :=
    pairwise_mergeSort (fun e => (order.key e, e.content)) _
  obtain ⟨leaders, hsub, hcontents, hfirst⟩ := exists_leaders admits [] hsorted
  have hbest (e : Entry) (he : e ∈ leaders) : q.Best c order e.content e := by
    refine ⟨(mem_candidates_iff h).mp (hsub.subset he), rfl, fun a ha hcontent => ?_⟩
    rw [above_iff]
    rcases hfirst e he a ((mem_candidates_iff h).mpr ha) hcontent with rfl | hbefore
    · exact lt_irrefl _
    · simp only [before, Bool.or_eq_true, Bool.and_eq_true, decide_eq_true_eq] at hbefore
      omega
  have hnodup : (leaders.map (·.content)).Nodup := hcontents ▸ nodup_distinct
  rw [hcontents, List.pairwise_map]
  refine ((hsorted.sublist hsub).and (List.pairwise_map.mp hnodup)).imp_of_mem ?_
  intro a b ha hb hab
  obtain ⟨hbefore, hne⟩ := hab
  exact ⟨a, b, hbest a ha, hbest b hb, ahead_of_before hne hbefore⟩

theorem answers_take (h : Catalog.Reachable c) (hlimit : q.limit ≤ maxLimit) :
    q.Answers s source c order
      (pick (q.admitsContent s source) q.limit [] (q.candidates c order)) := by
  have hqualifies (id : Nat) :
      id ∈ distinct (q.admitsContent s source) [] (q.candidates c order) ↔
        q.Qualifies s source c id := by
    simp only [mem_distinct, mem_candidates_iff h, admitsContent_iff, List.not_mem_nil,
      not_false_eq_true, true_and]
    exact and_comm
  have hpairwise : (distinct (q.admitsContent s source) [] (q.candidates c order)).Pairwise
      (q.Outranks c order) := pairwise_distinct h _
  have hnodup : (distinct (q.admitsContent s source) [] (q.candidates c order)).Nodup :=
    nodup_distinct
  rw [pick_eq_take]
  generalize distinct (q.admitsContent s source) [] (q.candidates c order) = all at *
  refine ⟨⟨all, hqualifies, hpairwise, rfl⟩, fun id hid => ?_, hnodup.sublist (List.take_sublist ..),
    ?_, fun id hid hleft a ha => ?_⟩
  · exact (hqualifies id).mp (List.mem_of_mem_take hid)
  · have hlength : (all.take q.limit).length ≤ q.limit := List.length_take_le ..
    omega
  · -- What is left out is in the rest of the list, after all that is taken.
    have hsplit := (List.take_append_drop q.limit all).symm
    have hmem := (hqualifies id).mpr hid
    rw [hsplit] at hmem hpairwise
    have hrest := (List.mem_append.mp hmem).resolve_left hleft
    exact (List.pairwise_append.mp hpairwise).2.2 a ha id hrest

theorem limit_le_of_validate (h : q.validate = .ok ()) : q.limit ≤ maxLimit := by
  unfold validate at h
  split at h
  · cases h
  · rename_i hlimit
    exact Nat.le_of_not_lt hlimit

theorem run_of_validate (hvalid : q.prepare.validate = .ok ()) :
    q.run s source c order = .ok (pick (q.prepare.admitsContent s source) q.prepare.limit []
      (q.prepare.candidates c order)) := by
  rw [run_eq, hvalid]
  rfl

theorem answers_of_run (h : Catalog.Reachable c) {ids : List Nat}
    (hrun : q.run s source c order = .ok ids) : q.prepare.Answers s source c order ids := by
  cases hvalid : q.prepare.validate with
  | error f =>
    rw [run_eq, hvalid] at hrun
    cases hrun
  | ok u =>
    obtain rfl := Except.ok.inj ((run_of_validate hvalid).symm.trans hrun)
    exact answers_take h (limit_le_of_validate hvalid)

/-- A valid query answers with the first contents that qualify now, whatever has become of the content
since the catalog was brought up to date. -/
theorem run_answers (h : Catalog.Reachable c) (s : Settings) (source : ContentSource) (q : Query)
    (order : SortOrder) (hvalid : q.prepare.validate = .ok ()) :
    ∃ ids, q.run s source c order = .ok ids ∧ q.prepare.Answers s source c order ids :=
  ⟨_, run_of_validate hvalid, answers_of_run h (run_of_validate hvalid)⟩

/-- The post that every order has first is gone from the ledger, and its entry is still there. -/
def lostSource : ContentSource :=
  { postsFiled.ledger.source with
    byId? := fun id => if id = 4 then none else postsFiled.ledger.byId? id }

/-- Each order has the posts that are left in another sequence, and none in that of their ids. -/
theorem run_answers_lost :
    let q : Query := { selectTags := .ofList [" News "] }
    let answer : SortOrder → List Nat
      | .hot => [3, 1, 2]
      | .trending => [2, 3, 1]
      | .created => [3, 2, 1]
    Catalog.Reachable postsFiled.catalog ∧ q.prepare.validate = .ok () ∧
      ∀ order, q.run {} lostSource postsFiled.catalog order = .ok (answer order) ∧
        q.prepare.Answers {} lostSource postsFiled.catalog order (answer order) := by
  intro q answer
  obtain ⟨F, hF⟩ := exists_course_postsFiled
  have hvalid : q.prepare.validate = .ok () := by decide +kernel
  refine ⟨hF.reachable, hvalid, fun order => ?_⟩
  obtain ⟨ids, hrun, hanswers⟩ := run_answers hF.reachable {} lostSource q order hvalid
  let found := (q.prepare.topics postsFiled.catalog).flatMap postsFiled.catalog.table.hot
  have hnodup : (found.map (·.content)).Nodup := by decide +kernel
  -- Every post has one entry, so that the order of the posts is that of the entries.
  have hids (posts : List Nat)
      (hperm : (posts.flatMap postsFiled.catalog.entriesOfContent).Perm found)
      (hsorted : (posts.flatMap postsFiled.catalog.entriesOfContent).Pairwise
        fun a b => order.precedes a b = true) :
      ids = pick (q.prepare.admitsContent {} lostSource) q.prepare.limit []
        (posts.flatMap postsFiled.catalog.entriesOfContent) := by
    rw [run_of_validate hvalid, candidates, mergeSort_precedes hperm hsorted hnodup] at hrun
    exact (Except.ok.inj hrun).symm
  have hanswer : ids = answer order := by
    cases order with
    | hot => exact (hids [4, 3, 1, 2] (by decide +kernel) (by decide +kernel)).trans (by decide +kernel)
    | trending =>
      exact (hids [4, 2, 3, 1] (by decide +kernel) (by decide +kernel)).trans (by decide +kernel)
    | created =>
      exact (hids [4, 3, 2, 1] (by decide +kernel) (by decide +kernel)).trans (by decide +kernel)
  exact hanswer ▸ ⟨hrun, hanswers⟩

end Query

end TagCatalog
