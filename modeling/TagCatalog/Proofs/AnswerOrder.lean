import TagCatalog.Proofs.Answers

/-! The order of an answer beside the order of a listing. The answer to a query for one tag is in the
order of that tag's listing, except that it does not tell times within one second apart. -/

namespace TagCatalog

theorem pair_sublist_or {α : Type} {l : List α} {a b : α} (ha : a ∈ l) (hb : b ∈ l) (hne : a ≠ b) :
    [a, b].Sublist l ∨ [b, a].Sublist l := by
  obtain ⟨pre, post, rfl⟩ := List.append_of_mem ha
  rcases List.mem_append.mp hb with hpre | hpost
  · exact .inr ((List.singleton_sublist.mpr hpre).append
      (List.singleton_sublist.mpr List.mem_cons_self))
  · have hpost : b ∈ post := (List.mem_cons.mp hpost).resolve_left hne.symm
    exact .inl (((List.singleton_sublist.mpr hpost).cons_cons a).trans
      (List.sublist_append_right pre _))

theorem Score.compare_eq_lt {a b : Score} : compare a b = .lt ↔ a.rank < b.rank :=
  Std.compare_eq_lt (α := Int)

namespace SortOrder

def listing (order : SortOrder) (c : Catalog) (topic : Topic) (limit : Nat) : List Entry :=
  match order with
  | .hot => c.hot topic limit
  | .trending => c.trending topic limit
  | .created => c.created topic limit

/-- What the listing goes by is strictly greater. -/
def Exceeds (order : SortOrder) (a b : Entry) : Prop :=
  match order with
  | .hot => compare b.hot a.hot = .lt
  | .trending => compare b.trending a.trending = .lt
  | .created => compare b.created a.created = .lt

theorem mem_of_listing {order : SortOrder} {c : Catalog} (h : c.Sound) {topic : Topic} {limit : Nat}
    {e : Entry} (he : e ∈ order.listing c topic limit) :
    (∃ id, c.table.get? id = some e) ∧ e.topic = topic := by
  cases order with
  | hot =>
    have hmem := (h.table.mem_listed h.table.ordered.hot).mp (List.mem_of_mem_take he)
    exact ⟨hmem.1, hmem.2.1⟩
  | trending =>
    have hmem := (h.table.mem_listed h.table.ordered.trending).mp (List.mem_of_mem_take he)
    exact ⟨hmem.1, hmem.2.1⟩
  | created =>
    have hmem := (h.table.mem_listed h.table.ordered.created).mp (List.mem_of_mem_take he)
    exact ⟨hmem.1, hmem.2.1⟩

theorem Exceeds.irrefl {order : SortOrder} {e : Entry} : ¬ order.Exceeds e e := by
  cases order with
  | hot => simp [Exceeds]
  | trending => simp [Exceeds]
  | created => simp [Exceeds]

theorem Exceeds.key_le {order : SortOrder} {a b : Entry} (h : order.Exceeds a b) :
    order.key b ≤ order.key a := by
  cases order with
  | hot => exact (Score.compare_eq_lt.mp h).le
  | trending => exact (Score.compare_eq_lt.mp h).le
  | created =>
    have h : (compare b.created.seconds a.created.seconds).then _ = .lt := h
    rcases Ordering.then_eq_lt.mp h with hlt | ⟨heq, -⟩
    · exact (Std.compare_eq_lt.mp hlt).le
    · exact (Std.compare_eq_iff_eq.mp heq).le

/-- A greater value has the greater key, except for times within one second. -/
theorem Exceeds.key_eq_iff {order : SortOrder} {a b : Entry} (h : order.Exceeds a b) :
    order.key a = order.key b ↔ order = .created ∧ a.created.seconds = b.created.seconds := by
  cases order with
  | hot => simpa [SortOrder.key] using (Score.compare_eq_lt.mp h).ne'
  | trending => simpa [SortOrder.key] using (Score.compare_eq_lt.mp h).ne'
  | created => simp [SortOrder.key]

end SortOrder

namespace Query

variable {q : Query} {s : Settings} {source : ContentSource} {c : Catalog} {order : SortOrder}

theorem Best.key_eq {content : Nat} {e f : Entry} (he : q.Best c order content e)
    (hf : q.Best c order content f) : order.key e = order.key f := by
  have hle := he.highest f hf.candidate hf.content_eq
  have hge := hf.highest e he.candidate he.content_eq
  rw [SortOrder.above_iff] at hle hge
  omega

theorem outranks_iff {a b : Nat} {e f : Entry} (he : q.Best c order a e) (hf : q.Best c order b f) :
    q.Outranks c order a b ↔ order.Ahead e f := by
  constructor
  · intro hh
    obtain ⟨e', f', he', hf', hahead⟩ := hh
    rw [SortOrder.ahead_iff, he'.content_eq, hf'.content_eq] at hahead
    rwa [SortOrder.ahead_iff, he.key_eq he', hf.key_eq hf', he.content_eq, hf.content_eq]
  · exact fun hh => ⟨e, f, he, hf, hh⟩

theorem Outranks.asymm {a b : Nat} (h : q.Outranks c order a b) : ¬ q.Outranks c order b a := by
  obtain ⟨e, f, he, hf, hahead⟩ := h
  rw [SortOrder.ahead_iff] at hahead
  rw [outranks_iff hf he, SortOrder.ahead_iff]
  omega

/-- Two contents stand in an answer as they rank. -/
theorem Answers.pair_sublist_iff {ids : List Nat} (h : q.Answers s source c order ids) {a b : Nat}
    (ha : a ∈ ids) (hb : b ∈ ids) (hne : a ≠ b) :
    [a, b].Sublist ids ↔ q.Outranks c order a b := by
  obtain ⟨all, -, hpairwise, rfl⟩ := h.first
  have hranked : (all.take q.limit).Pairwise (q.Outranks c order) :=
    hpairwise.sublist (List.take_sublist ..)
  constructor
  · intro hsub
    exact List.pairwise_pair.mp (hranked.sublist hsub)
  · intro hab
    refine (pair_sublist_or ha hb hne).resolve_right fun hsub => ?_
    exact hab.asymm (List.pairwise_pair.mp (hranked.sublist hsub))

theorem mem_selectTags_prepare {name : String} (hname : normalizeName? name = some name)
    (limit : Nat) (tag : String) :
    tag ∈ ({ selectTags := .ofList [name], limit } : Query).prepare.selectTags ↔ tag = name := by
  have hgiven (given : String) : given ∈ (Std.ExtTreeSet.ofList [name] : Names) ↔ given = name := by
    simp [eq_comm (a := given)]
  rw [prepare, mem_normalizeNames]
  simp only [hgiven, exists_eq_left, hname, Option.some.injEq]
  exact eq_comm

theorem LooksUnder.eq_tag {name : String} (hq : ∀ tag, tag ∈ q.selectTags ↔ tag = name)
    {topic : Topic} (h : q.LooksUnder c topic) : topic = .tag name := by
  cases h with
  | tag hname => rw [(hq _).mp hname]
  | language hnone => exact absurd ((hq name).mpr rfl) (hnone name)
  | row hnone => exact absurd ((hq name).mpr rfl) (hnone name)

/-- Under one tag a content has one entry, which is its best. -/
theorem best_of_live (h : c.Sound) (order : SortOrder) {name : String}
    (hq : ∀ tag, tag ∈ q.selectTags ↔ tag = name) {id : Nat} {e : Entry}
    (he : c.table.get? id = some e) (htopic : e.topic = .tag name)
    (hcandidate : ∃ a, q.Candidate c a ∧ a.content = e.content) :
    q.Best c order e.content e := by
  have hown (a : Entry) (ha : q.Candidate c a) (hcontent : a.content = e.content) : a = e := by
    obtain ⟨i, hi⟩ := ha.live
    have hfiling : a.filing = e.filing := by
      rw [Entry.filing, Entry.filing, ha.topic.eq_tag hq, htopic, hcontent]
    obtain rfl := h.table.id_eq_of_filing hi he hfiling
    exact Option.some.inj (hi.symm.trans he)
  obtain ⟨a, ha, hcontent⟩ := hcandidate
  refine ⟨hown a ha hcontent ▸ ha, rfl, fun b hb hb' => ?_⟩
  rw [hown b hb hb', SortOrder.above_iff]
  exact lt_irrefl _

/-- An answer agrees with the listing, but puts content of one second in the order of its ids. -/
theorem pair_sublist_run_iff (h : Catalog.Reachable c) {name : String}
    (hname : normalizeName? name = some name) {limit n : Nat} {ids : List Nat}
    (hrun : ({ selectTags := .ofList [name], limit } : Query).run s source c order = .ok ids)
    {a b : Entry} (hlisted : [a, b].Sublist (order.listing c (.tag name) n))
    (hexceeds : order.Exceeds a b) (ha : a.content ∈ ids) (hb : b.content ∈ ids) :
    [a.content, b.content].Sublist ids ↔
      ¬ (order = .created ∧ a.created.seconds = b.created.seconds ∧ b.content < a.content) := by
  have hanswers := answers_of_run h hrun
  have hq := mem_selectTags_prepare hname limit
  have hlive (e : Entry) (he : e ∈ [a, b]) := SortOrder.mem_of_listing h.sound (hlisted.subset he)
  obtain ⟨⟨i, hi⟩, hatopic⟩ := hlive a (by simp)
  obtain ⟨⟨j, hj⟩, hbtopic⟩ := hlive b (by simp)
  have hne : a.content ≠ b.content := by
    intro hcontent
    have hfiling : a.filing = b.filing := by rw [Entry.filing, Entry.filing, hatopic, hbtopic, hcontent]
    obtain rfl := h.sound.table.id_eq_of_filing hi hj hfiling
    obtain rfl := Option.some.inj (hi.symm.trans hj)
    exact SortOrder.Exceeds.irrefl hexceeds
  have hbesta := best_of_live h.sound order hq hi hatopic (hanswers.qualifies _ ha).1
  have hbestb := best_of_live h.sound order hq hj hbtopic (hanswers.qualifies _ hb).1
  rw [hanswers.pair_sublist_iff ha hb hne, outranks_iff hbesta hbestb, SortOrder.ahead_iff]
  have hle := hexceeds.key_le
  rw [← and_assoc, ← hexceeds.key_eq_iff]
  omega

end Query

/-- Two posts of the first second, the later one with the greater id. -/
def twinsFiled : Node :=
  Node.nexts {} [
    .upsert ((rootPost "news").createdAt ⟨0, 250000000⟩),
    .apply (.comment ⟨"alice", "morning"⟩ "" "news"),
    .upsert { (Content.post ⟨"bob", "noon"⟩ ⟨0, 500000000⟩).inCategory "news" with
      cashoutTime := some .last },
    .apply (.comment ⟨"bob", "noon"⟩ "" "news")] {}

theorem exists_history_twinsFiled : ∃ F, History {} twinsFiled F :=
  History.exists_nexts ⟨_, .start⟩ (by decide +kernel)

def newsQuery : Query := { selectTags := .ofList ["news"], limit := 2 }

theorem run_twinsFiled : newsQuery.run {} twinsFiled.ledger.source twinsFiled.catalog .created =
    .ok [1, 2] := by
  have hvalid : newsQuery.prepare.validate = .ok () := by decide +kernel
  have hsorted : ((newsQuery.prepare.topics twinsFiled.catalog).flatMap
      twinsFiled.catalog.table.hot).Pairwise fun a b =>
        SortOrder.created.precedes a b = true := by decide +kernel
  rw [Query.run_of_validate hvalid, Query.candidates, List.mergeSort_of_pairwise hsorted]
  refine congrArg Except.ok ?_
  decide +kernel

/-- The later of the two posts is listed first. -/
theorem exists_listed_twinsFiled : ∃ a b, a.content = 2 ∧ b.content = 1 ∧
    [a, b].Sublist (SortOrder.created.listing twinsFiled.catalog (.tag "news") 2) ∧
    SortOrder.created.Exceeds a b ∧ a.created.seconds = b.created.seconds := by
  have hlisted : (SortOrder.created.listing twinsFiled.catalog (.tag "news") 2).map
      (fun e => (e.content, e.created)) = [(2, ⟨0, 500000000⟩), (1, ⟨0, 250000000⟩)] := by
    decide +kernel
  obtain ⟨a, rest, hlist, ha, hrest⟩ := List.map_eq_cons_iff.mp hlisted
  obtain ⟨b, last, rfl, hb, hlast⟩ := List.map_eq_cons_iff.mp hrest
  obtain rfl := List.map_eq_nil_iff.mp hlast
  obtain ⟨hacontent, hacreated⟩ := Prod.mk.inj ha
  obtain ⟨hbcontent, hbcreated⟩ := Prod.mk.inj hb
  refine ⟨a, b, hacontent, hbcontent, hlist ▸ .refl _, ?_, by rw [hacreated, hbcreated]⟩
  rw [SortOrder.Exceeds, hacreated, hbcreated]
  decide

theorem alike_twinsFiled (content : Nat) : twinsFiled.catalog.Alike content := by
  obtain ⟨F, hF⟩ := exists_history_twinsFiled
  have halike : ∀ a ∈ twinsFiled.catalog.table.toList, ∀ b ∈ twinsFiled.catalog.table.toList,
      a.content = b.content → a.hot = b.hot ∧ a.trending = b.trending ∧ a.created = b.created := by
    decide +kernel
  exact Catalog.alike_of_toList hF.holds.catalog halike content

/-- Content of one second is not answered newest first, though it is listed so. -/
theorem Query.not_pair_sublist_run :
    ¬ ∀ s n F name limit order ids a b, History s n F → (∀ content, n.catalog.Alike content) →
      (∀ id e, n.catalog.table.get? id = some e →
        e.hot.isNaN = false ∧ e.trending.isNaN = false) →
      normalizeName? name = some name →
      (n.catalog.table.toList.filter (·.topic = .tag name)).length ≤ limit →
      ({ selectTags := .ofList [name], limit } : Query).run s n.ledger.source n.catalog order =
        .ok ids →
      [a, b].Sublist (order.listing n.catalog (.tag name) limit) → order.Exceeds a b →
      a.content ∈ ids → b.content ∈ ids → [a.content, b.content].Sublist ids := by
  intro h
  obtain ⟨F, hF⟩ := exists_history_twinsFiled
  obtain ⟨a, b, ha, hb, hlisted, hexceeds, -⟩ := exists_listed_twinsFiled
  have hnumbers : ∀ e ∈ twinsFiled.catalog.table.toList,
      e.hot.isNaN = false ∧ e.trending.isNaN = false := by decide +kernel
  have hsub := h {} twinsFiled F "news" 2 .created [1, 2] a b hF alike_twinsFiled
    (fun id e he => hnumbers e (EntryTable.mem_toList.mpr ⟨id, he⟩)) (by decide +kernel)
    (by decide +kernel) run_twinsFiled hlisted hexceeds (by simp [ha]) (by simp [hb])
  rw [ha, hb] at hsub
  exact absurd hsub (by decide)

theorem Query.pair_sublist_run_iff_twinsFiled :
    Catalog.Reachable twinsFiled.catalog ∧ normalizeName? "news" = some "news" ∧
      newsQuery.run {} twinsFiled.ledger.source twinsFiled.catalog .created = .ok [1, 2] ∧
      ∃ a b, [a, b].Sublist (SortOrder.created.listing twinsFiled.catalog (.tag "news") 2) ∧
        SortOrder.created.Exceeds a b ∧ a.content ∈ [1, 2] ∧ b.content ∈ [1, 2] ∧
        ¬ [a.content, b.content].Sublist [1, 2] := by
  obtain ⟨F, hF⟩ := exists_history_twinsFiled
  obtain ⟨a, b, ha, hb, hlisted, hexceeds, hseconds⟩ := exists_listed_twinsFiled
  have hname : normalizeName? "news" = some "news" := by decide +kernel
  have hamem : a.content ∈ [1, 2] := by simp [ha]
  have hbmem : b.content ∈ [1, 2] := by simp [hb]
  have hiff := Query.pair_sublist_run_iff hF.reachable hname run_twinsFiled hlisted hexceeds
    hamem hbmem
  refine ⟨hF.reachable, hname, run_twinsFiled, a, b, hlisted, hexceeds, hamem, hbmem, ?_⟩
  rw [hiff, not_not]
  exact ⟨rfl, hseconds, by omega⟩

end TagCatalog
