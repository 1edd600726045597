import TagCatalog.Proofs.Balances
import TagCatalog.Proofs.Discovery

/-! Indexing open content from nothing. The catalog depends on which content was written and, but for
the ids of entries, neither on the order nor on how often; queries do not see those ids. -/

namespace TagCatalog

namespace Entry

def unnumbered (e : Entry) : Entry := { e with id := 0 }

theorem exists_id_of_unnumbered {e a : Entry} (h : e.unnumbered = a) :
    ∃ id, e = { a with id } :=
  ⟨e.id, by rw [← h]; rfl⟩

end Entry

namespace Catalog

variable {s : Settings} {c d : Catalog} {e : Entry}

theorem mem_unnumbered :
    e ∈ c.table.toList.map Entry.unnumbered ↔
      ∃ id a, c.table.get? id = some a ∧ a.unnumbered = e := by
  simp only [List.mem_map, EntryTable.mem_toList]
  constructor
  · intro hh
    obtain ⟨a, ⟨id, ha⟩, rfl⟩ := hh
    exact ⟨id, a, ha, rfl⟩
  · intro hh
    obtain ⟨id, a, ha, rfl⟩ := hh
    exact ⟨a, ⟨id, ha⟩, rfl⟩

theorem nodup_unnumbered (h : c.Sound) : (c.table.toList.map Entry.unnumbered).Nodup := by
  refine nodup_map_values ?_
  intro i j a b ha hb hab
  have hfiling : a.unnumbered.filing = b.unnumbered.filing := congrArg Entry.filing hab
  exact h.table.id_eq_of_filing ha hb hfiling

/-- The catalogs differ in nothing but the ids of their entries. -/
structure SameButIds (c d : Catalog) : Prop where
  entries : (c.table.toList.map Entry.unnumbered).Perm (d.table.toList.map Entry.unnumbered)
  totals : c.totals = d.totals

/-! ## Totals -/

theorem recount_unnumbered (topic : Topic) (es : List Entry) (payout : Nat) :
    TopicTotals.recount topic (es.map Entry.unnumbered) payout =
      TopicTotals.recount topic es payout := by
  simp only [TopicTotals.recount, List.countP_map, List.filter_map, List.map_map]
  rfl

theorem recount_author_unnumbered (key : Authorship) (es : List Entry) (rewards : Nat) :
    AuthorTotals.recount key (es.map Entry.unnumbered) rewards =
      AuthorTotals.recount key es rewards := by
  simp only [AuthorTotals.recount, List.countP_map]
  rfl

/-- Nothing was ever paid to a row that is there. -/
def Unpaid (c : Catalog) : Prop := ∀ account x, c.balance? account = some x → x = 0

theorem Unpaid.payout_eq (h : c.Unpaid) {topic : Topic} {row : TopicTotals}
    (hrow : c.totals.topics[topic]? = some row) : row.payout = 0 := by
  refine h (.topic topic) row.payout ?_
  simp [balance?, Totals.balance?, Totals.topic?, hrow]

theorem Unpaid.rewards_eq (h : c.Unpaid) {key : Authorship} {row : AuthorTotals}
    (hrow : c.totals.authors[key]? = some row) : row.rewards = 0 := by
  refine h (.author key.author key.topic) row.rewards ?_
  simp [balance?, Totals.balance?, Totals.author?, hrow]

/-- Where nothing was paid, entries that are the same but for their ids have the same totals. -/
theorem SameButIds.of_entries (hc : c.Sound) (hd : d.Sound) (hcpaid : c.Unpaid) (hdpaid : d.Unpaid)
    (hentries : (c.table.toList.map Entry.unnumbered).Perm (d.table.toList.map Entry.unnumbered)) :
    c.SameButIds d := by
  have hkeys {κ : Type} (key : Entry → κ) (hkey : ∀ e, key e.unnumbered = key e) (k : κ) :
      (∃ e ∈ c.table.toList, key e = k) ↔ ∃ e ∈ d.table.toList, key e = k := by
    have hlist (es : List Entry) : (∃ e ∈ es, key e = k) ↔
        ∃ e ∈ es.map Entry.unnumbered, key e = k := by simp [hkey]
    rw [hlist c.table.toList, hlist d.table.toList]
    exact exists_congr fun e => and_congr_left fun _ => hentries.mem_iff
  have htopics : c.totals.topics = d.totals.topics := by
    refine hc.totals.topics.eq hd.totals.topics (hkeys Entry.topic fun _ => rfl) ?_
    intro topic row row' hrow hrow'
    simp only [hcpaid.payout_eq hrow, hdpaid.payout_eq hrow']
    rw [← recount_unnumbered topic c.table.toList, ← recount_unnumbered topic d.table.toList]
    exact TopicTotals.recount_perm hentries topic 0
  have hauthors : c.totals.authors = d.totals.authors := by
    refine hc.totals.authors.eq hd.totals.authors (hkeys Entry.authorship fun _ => rfl) ?_
    intro key row row' hrow hrow'
    simp only [hcpaid.rewards_eq hrow, hdpaid.rewards_eq hrow']
    rw [← recount_author_unnumbered key c.table.toList,
      ← recount_author_unnumbered key d.table.toList]
    simp only [AuthorTotals.recount, hentries.countP_eq]
  have hlanguages : c.totals.languages = d.totals.languages := by
    apply Std.ExtTreeSet.ext_mem
    intro name
    rw [hc.totals.languages name, hd.totals.languages name]
    exact hkeys Entry.topic (fun _ => rfl) (.language name)
  refine ⟨hentries, ?_⟩
  rw [← show (⟨d.totals.topics, d.totals.authors, d.totals.languages⟩ : Totals) = d.totals from rfl,
    ← htopics, ← hauthors, ← hlanguages]

/-! ## Queries -/

theorem SameButIds.symm (h : c.SameButIds d) : d.SameButIds c := ⟨h.entries.symm, h.totals.symm⟩

theorem SameButIds.exists_candidate (h : c.SameButIds d) (hc : c.Sound) (hd : d.Sound)
    {topics : List Topic} (he : e ∈ topics.flatMap d.table.hot) :
    ∃ a ∈ topics.flatMap c.table.hot, a.unnumbered = e.unnumbered := by
  obtain ⟨⟨id, hid⟩, htopic, hle⟩ := hd.table.mem_flatMap_hot.mp he
  have hmem : e.unnumbered ∈ d.table.toList.map Entry.unnumbered :=
    mem_unnumbered.mpr ⟨id, e, hid, rfl⟩
  obtain ⟨i, a, ha, hae⟩ := mem_unnumbered.mp (h.entries.mem_iff.mpr hmem)
  obtain ⟨j, rfl⟩ := Entry.exists_id_of_unnumbered hae
  exact ⟨_, hc.table.mem_flatMap_hot.mpr ⟨⟨i, ha⟩, htopic, hle⟩, hae⟩

/-- Ids decide nothing where the entries of one content rank alike. -/
theorem SameButIds.answerFrom_eq (h : c.SameButIds d) (hc : c.Sound) (hd : d.Sound)
    (halike : ∀ id, c.Alike id) (q : Query) (s : Settings) (source : ContentSource)
    (order : SortOrder) (topics : List Topic) :
    q.answerFrom s source c order topics = q.answerFrom s source d order topics := by
  let admits := q.admitsContent s source
  let ids := Query.distinct admits [] (topics.flatMap c.table.hot)
  have hids (id : Nat) : id ∈ ids ↔
      admits id = true ∧ ∃ e ∈ topics.flatMap c.table.hot, e.content = id := by
    simp [ids, Query.mem_distinct]
  have hkey (e : Entry) (he : e ∈ topics.flatMap c.table.hot) :
      order.key e = c.keyOf order e.content := by
    obtain ⟨⟨id, hid⟩, -⟩ := hc.table.mem_flatMap_hot.mp he
    exact key_eq_keyOf hc order hid (halike e.content)
  have hkey' (e : Entry) (he : e ∈ topics.flatMap d.table.hot) :
      order.key e = c.keyOf order e.content := by
    obtain ⟨a, ha, hae⟩ := h.exists_candidate hc hd he
    obtain ⟨id, rfl⟩ := Entry.exists_id_of_unnumbered hae
    have hranked := hkey _ ha
    cases order <;> exact hranked
  have hids' (id : Nat) : id ∈ ids ↔
      admits id = true ∧ ∃ e ∈ topics.flatMap d.table.hot, e.content = id := by
    rw [hids]
    refine and_congr_right fun _ => ⟨fun hh => ?_, fun hh => ?_⟩
    · obtain ⟨e, he, rfl⟩ := hh
      obtain ⟨a, ha, hae⟩ := h.symm.exists_candidate hd hc he
      have hcontent : a.unnumbered.content = e.unnumbered.content := congrArg Entry.content hae
      exact ⟨a, ha, hcontent⟩
    · obtain ⟨e, he, rfl⟩ := hh
      obtain ⟨a, ha, hae⟩ := h.exists_candidate hc hd he
      have hcontent : a.unnumbered.content = e.unnumbered.content := congrArg Entry.content hae
      exact ⟨a, ha, hcontent⟩
  have hc' := Query.pick_mergeSort (c.keyOf order) (fun e he _ => hkey e he)
    Query.nodup_distinct hids q.limit
  have hd' := Query.pick_mergeSort (c.keyOf order) (fun e he _ => hkey' e he)
    Query.nodup_distinct hids' q.limit
  exact hc'.trans hd'.symm

theorem SameButIds.run_eq (h : c.SameButIds d) (hc : c.Sound) (hd : d.Sound)
    (halike : ∀ id, c.Alike id) (q : Query) (s : Settings) (source : ContentSource)
    (order : SortOrder) : q.run s source c order = q.run s source d order := by
  have htopics : q.prepare.topics c = q.prepare.topics d := by
    unfold Query.topics
    rw [h.totals]
  rw [Query.run_eq, Query.run_eq, htopics, h.answerFrom_eq hc hd halike]

end Catalog

/-! ## Indexing -/

/-- The entry of content under a topic, as one that is made anew. -/
def ContentSource.entryOf (source : ContentSource) (s : Settings) (content : Content)
    (topic : Topic) : Entry :=
  .ofContent s topic ((source.parent? content).map (·.id)) content

namespace Catalog

variable {s : Settings} {source : ContentSource} {l : Ledger} {c d : Catalog} {done : List Address}
  {a : Address} {content : Content} {id : Nat} {e : Entry}

/-- The catalog has what writing the content of some addresses leaves there, and was never paid. -/
structure Indexed (s : Settings) (source : ContentSource) (done : List Address) (c : Catalog) :
    Prop where
  sound : c.Sound
  unpaid : c.Unpaid
  entries : ∀ e, e ∈ c.table.toList.map Entry.unnumbered ↔
    ∃ a ∈ done, ∃ content, source.at? a = some content ∧
      ∃ topic ∈ (source.classify s content).topics, e = source.entryOf s content topic

theorem Indexed.empty : Indexed s source [] .empty := by
  refine ⟨Sound.empty, fun account x hx => ?_, fun e => ?_⟩
  · cases account <;>
      simp [balance?, Totals.balance?, Totals.topic?, Totals.author?, Catalog.empty,
        Totals.empty] at hx
  · rw [mem_unnumbered]
    simp [Catalog.empty, EntryTable.empty, EntryTable.get?]

/-- Content has one record in a ledger, so that its entries are those of what is written now. -/
theorem Indexed.made (h : Indexed s l.source done c) (hl : l.Coherent)
    (hcontent : l.byId? content.id = some content) (he : c.table.get? id = some e)
    (hec : e.content = content.id) :
    e.topic ∈ (l.source.classify s content).topics ∧
      e.unnumbered = l.source.entryOf s content e.topic := by
  have hmem : e.unnumbered ∈ c.table.toList.map Entry.unnumbered :=
    mem_unnumbered.mpr ⟨id, e, he, rfl⟩
  obtain ⟨b, -, written, hat, topic, htopic, hmade⟩ := (h.entries _).mp hmem
  have hid : e.unnumbered.content = written.id := congrArg Entry.content hmade
  have het : e.unnumbered.topic = topic := congrArg Entry.topic hmade
  have hwritten : l.byId? written.id = some written := (hl.at?_eq_some.mp hat).1
  have hsame : content = written := by
    have hids : content.id = written.id := hec.symm.trans hid
    rw [hids, hwritten] at hcontent
    exact (Option.some.inj hcontent).symm
  subst hsame
  obtain rfl : e.topic = topic := het
  exact ⟨htopic, hmade⟩

theorem refreshed_entryOf (he : e.unnumbered = source.entryOf s content e.topic) :
    e.refreshed s content = e := by
  obtain ⟨id, he⟩ := Entry.exists_id_of_unnumbered he
  rw [he]
  rfl

theorem Indexed.add (h : Indexed s l.source done c) (hl : l.Coherent)
    (hat : l.at? a = some content) (hd : d.Sound) (hcarries : c.totals.Carries d.totals)
    (hre : Reclassified s content ((l.source.parent? content).map (·.id))
      (l.source.classify s content).topics c d) :
    Indexed s l.source (a :: done) d := by
  have hcontent : l.byId? content.id = some content := (hl.at?_eq_some.mp hat).1
  -- What is there already is up to date, whoever it belongs to.
  have hkept (id : Nat) (e : Entry) (he : c.table.get? id = some e) : d.table.get? id = some e := by
    rw [hre.old id e he]
    by_cases hec : e.content = content.id
    · obtain ⟨htopic, hmade⟩ := h.made hl hcontent he hec
      rw [if_neg (by simpa using hec), if_pos htopic, refreshed_entryOf hmade]
    · rw [if_pos hec]
  have hnew (id : Nat) (e : Entry) (hnone : c.table.get? id = none) (he : d.table.get? id = some e) :
      e.topic ∈ (l.source.classify s content).topics ∧
        e.unnumbered = l.source.entryOf s content e.topic := by
    obtain ⟨htopic, hmade⟩ := hre.new id e hnone he
    refine ⟨htopic, ?_⟩
    rw [hmade]
    rfl
  refine ⟨hd, fun account x hx => ?_, fun e => ?_⟩
  · rcases hcarries account with hsame | hgone | ⟨-, hzero⟩
    · exact h.unpaid account x (hsame.symm.trans hx)
    · cases hgone.symm.trans hx
    · exact (Option.some.inj (hzero.symm.trans hx)).symm
  · constructor
    · intro hmem
      obtain ⟨id, b, hb, rfl⟩ := mem_unnumbered.mp hmem
      cases hid : c.table.get? id with
      | none =>
        obtain ⟨htopic, hmade⟩ := hnew id b hid hb
        exact ⟨a, List.mem_cons_self, content, hat, b.topic, htopic, hmade⟩
      | some old =>
        obtain rfl := Option.some.inj (hb.symm.trans (hkept id old hid))
        obtain ⟨a', ha', hold⟩ := (h.entries _).mp (mem_unnumbered.mpr ⟨id, b, hid, rfl⟩)
        exact ⟨a', List.mem_cons_of_mem a ha', hold⟩
    · intro hh
      obtain ⟨a', ha', written, hat', topic, htopic, rfl⟩ := hh
      rcases List.mem_cons.mp ha' with rfl | ha'
      · obtain rfl := Option.some.inj (hat.symm.trans hat')
        obtain ⟨id, b, hb, hfiling⟩ := hre.there topic htopic
        have hbt : b.topic = topic := congrArg Filing.topic hfiling
        have hbc : b.content = content.id := congrArg Filing.content hfiling
        refine mem_unnumbered.mpr ⟨id, b, hb, ?_⟩
        rw [← hbt]
        cases hid : c.table.get? id with
        | none => exact (hnew id b hid hb).2
        | some old =>
          obtain rfl := Option.some.inj (hb.symm.trans (hkept id old hid))
          exact (h.made hl hcontent hid hbc).2
      · have hmem := (h.entries _).mpr ⟨a', ha', written, hat', topic, htopic, rfl⟩
        obtain ⟨id, b, hb, hmade⟩ := mem_unnumbered.mp hmem
        exact mem_unnumbered.mpr ⟨id, b, hkept id b hb, hmade⟩

theorem Indexed.alike (h : Indexed s l.source done c) (hl : l.Coherent) (id : Nat) : c.Alike id := by
  intro a ha b hb
  obtain ⟨⟨i, hi⟩, hac⟩ := (mem_entriesOfContent h.sound).mp ha
  obtain ⟨⟨j, hj⟩, hbc⟩ := (mem_entriesOfContent h.sound).mp hb
  obtain ⟨_, -, content, hat, topic, -, hmade⟩ :=
    (h.entries _).mp (mem_unnumbered.mpr ⟨i, a, hi, rfl⟩)
  have hcontent : l.byId? content.id = some content := (hl.at?_eq_some.mp hat).1
  have hid : a.unnumbered.content = content.id := congrArg Entry.content hmade
  have hbid : b.content = content.id := hbc.trans (hac.symm.trans hid)
  have hranks (e : Entry) (he : e.unnumbered = l.source.entryOf s content e.topic) :
      e.hot = (s.scores content.netRshares content.created).1 ∧
        e.trending = (s.scores content.netRshares content.created).2 ∧
        e.created = content.created := by
    obtain ⟨hhot, htrending, hcreated⟩ : e.unnumbered.hot = _ ∧ e.unnumbered.trending = _ ∧
        e.unnumbered.created = _ := by rw [he]; exact ⟨rfl, rfl, rfl⟩
    exact ⟨hhot, htrending, hcreated⟩
  obtain ⟨hahot, hatrending, hacreated⟩ := hranks a (h.made hl hcontent hi hid).2
  obtain ⟨hbhot, hbtrending, hbcreated⟩ := hranks b (h.made hl hcontent hj hbid).2
  exact ⟨hahot.trans hbhot.symm, hatrending.trans hbtrending.symm, hacreated.trans hbcreated.symm⟩

theorem Indexed.sameButIds {done' : List Address} (h : Indexed s source done c)
    (h' : Indexed s source done' d) (hdone : ∀ a, a ∈ done ↔ a ∈ done') : c.SameButIds d := by
  refine .of_entries h.sound h'.sound h.unpaid h'.unpaid ?_
  rw [List.perm_ext_iff_of_nodup (nodup_unnumbered h.sound) (nodup_unnumbered h'.sound)]
  intro e
  rw [h.entries, h'.entries]
  exact exists_congr fun a => and_congr_left fun _ => hdone a

end Catalog

namespace Operation

def written? : Operation → Option Address
  | .comment a _ _ => some a
  | _ => none

/-- The operation writes open content, and what that replies to is there. -/
def indexes (source : ContentSource) (op : Operation) : Bool :=
  (op.written?.bind source.at?).any fun content =>
    content.isOpen && content.parent?.all fun b => (source.at? b).isSome

end Operation

namespace Catalog

variable {s : Settings} {l : Ledger} {c : Catalog} {done : List Address}

theorem Indexed.yields_apply (h : Indexed s l.source done c) (hl : l.Coherent) {op : Operation}
    (hop : op.indexes l.source = true) :
    Update.Yields (apply s l.source op) c
      (fun _ d => ∃ a, op.written? = some a ∧ Indexed s l.source (a :: done) d)
      fun _ _ => False := by
  obtain ⟨content, hwritten, hcontent⟩ := (Option.any_eq_true _ _).mp hop
  obtain ⟨a, hop, hat⟩ := Option.bind_eq_some_iff.mp hwritten
  rw [Bool.and_eq_true] at hcontent
  obtain ⟨hopen, hparent⟩ := hcontent
  cases op with
  | comment a' parentAuthor parentPermlink =>
    obtain rfl := Option.some.inj hop
    simp only [apply, Update.yields_bind, yields_requireContent]
    refine ⟨fun content' hat' => ?_, fun hnone => by cases hat.symm.trans hnone⟩
    obtain rfl := Option.some.inj (hat.symm.trans hat')
    rw [if_pos hopen]
    refine ((yields_classify h.sound a').and (yields_classify_carries a')).mono ?_ ?_
    · intro _ d hh
      obtain ⟨⟨hd, content', hat', -, hre⟩, hcarries⟩ := hh
      obtain rfl := Option.some.inj (hat.symm.trans hat')
      exact ⟨a', rfl, h.add hl hat hd hcarries hre⟩
    · intro f d hh
      obtain ⟨⟨-, hrefused⟩, -⟩ := hh
      cases hrefused with
      | missing hnone => cases hat.symm.trans hnone
      | closed content' hat' hclosed =>
        obtain rfl := Option.some.inj (hat.symm.trans hat')
        cases hopen.symm.trans hclosed
      | orphaned content' hat' b hb hnone =>
        obtain rfl := Option.some.inj (hat.symm.trans hat')
        rw [hb, Option.all_some, hnone] at hparent
        cases hparent
  | _ => cases hop

theorem Indexed.yields_applyAll (h : Indexed s l.source done c) (hl : l.Coherent)
    {ops : List Operation} (hops : ∀ op ∈ ops, op.indexes l.source = true) :
    Update.Yields (applyAll s l.source ops) c
      (fun _ d => Indexed s l.source ((ops.filterMap Operation.written?).reverse ++ done) d)
      fun _ _ => False := by
  induction ops generalizing c done with
  | nil => exact h
  | cons op ops ih =>
    simp only [applyAll, Update.yields_bind, Update.yields_pure]
    refine (h.yields_apply hl (hops op List.mem_cons_self)).imp ?_
    intro _ d hh
    obtain ⟨a, ha, hd⟩ := hh
    refine (ih hd fun op' hop' => hops op' (List.mem_cons_of_mem op hop')).imp ?_
    intro _ d' hd'
    rw [List.filterMap_cons_some ha, List.reverse_cons, List.append_assoc]
    exact hd'

end Catalog

variable {s s₀ : Settings} {n : Node} {F : Filed}

/-- Two lists of writes to the same open content, made from nothing in any order and with any
repetitions, both return. Their catalogs are the same but for the ids of entries, and no query of any
source of content tells them apart. -/
theorem History.indexing_order (h : History s₀ n F) {ops ops' : List Operation}
    (hops : ∀ op ∈ ops, op.indexes n.ledger.source = true)
    (hops' : ∀ op ∈ ops', op.indexes n.ledger.source = true)
    (hsame : ∀ a, a ∈ ops.filterMap Operation.written? ↔ a ∈ ops'.filterMap Operation.written?)
    (hfits : ∀ t, Catalog.applyAll s n.ledger.source ops .empty ≠ .error .overflow t)
    (hfits' : ∀ t, Catalog.applyAll s n.ledger.source ops' .empty ≠ .error .overflow t) :
    ∃ r r' c d, Catalog.applyAll s n.ledger.source ops .empty = .ok r c ∧
      Catalog.applyAll s n.ledger.source ops' .empty = .ok r' d ∧ c.SameButIds d ∧
      ∀ q s' source order, Query.run q s' source c order = Query.run q s' source d order := by
  have hl := h.holds.ledger
  obtain ⟨r, c, hrun, hc⟩ := (Catalog.Indexed.empty.yields_applyAll hl hops).exists_ok hfits
  obtain ⟨r', d, hrun', hd⟩ := (Catalog.Indexed.empty.yields_applyAll hl hops').exists_ok hfits'
  have hids : c.SameButIds d := hc.sameButIds hd fun a => by simpa using hsame a
  refine ⟨r, r', c, d, hrun, hrun', hids, fun q s' source order => ?_⟩
  exact hids.run_eq hc.sound hd.sound (hc.alike hl) q s' source order

def writesRoot : Operation := .comment ⟨"alice", "morning"⟩ "" "news"

def writesReply : Operation := .comment ⟨"bob", "answer"⟩ "alice" "morning"

def replyIndexed (ops : List Operation) : Catalog :=
  (Update.after? (Catalog.applyAll {} replyFiled.ledger.source ops) .empty).getD .empty

theorem returns_replyIndexed :
    Update.returns (Catalog.applyAll {} replyFiled.ledger.source [writesReply, writesRoot])
      .empty = true ∧
    Update.returns (Catalog.applyAll {} replyFiled.ledger.source
      [writesRoot, writesReply, writesRoot]) .empty = true := by decide +kernel

theorem mem_written_replyIndexed (a : Address) :
    a ∈ [writesReply, writesRoot].filterMap Operation.written? ↔
      a ∈ [writesRoot, writesReply, writesRoot].filterMap Operation.written? := by
  simp only [writesReply, writesRoot, Operation.written?, List.filterMap_cons, List.filterMap_nil,
    List.mem_cons, List.not_mem_nil, or_false]
  tauto

/-- A post after its reply, or before and after it: the entries have other ids. -/
theorem History.indexing_order_replyFiled :
    (∃ F, History {} replyFiled F) ∧
    (replyIndexed [writesReply, writesRoot]).SameButIds
      (replyIndexed [writesRoot, writesReply, writesRoot]) ∧
    (replyIndexed [writesReply, writesRoot]).table.toList.map (·.content) = [2, 1] ∧
    (replyIndexed [writesRoot, writesReply, writesRoot]).table.toList.map (·.content) = [1, 2] := by
  obtain ⟨F, hF⟩ := exists_history_replyFiled
  have hindexes : ∀ op ∈ [writesReply, writesRoot],
      op.indexes replyFiled.ledger.source = true := by decide +kernel
  have hindexes' : ∀ op ∈ [writesRoot, writesReply, writesRoot],
      op.indexes replyFiled.ledger.source = true := by decide +kernel
  obtain ⟨hreturns, hreturns'⟩ := returns_replyIndexed
  obtain ⟨r, r', c, d, hrun, hrun', hids, -⟩ := History.indexing_order hF hindexes hindexes'
    mem_written_replyIndexed (Update.ne_overflow_of_returns hreturns)
    (Update.ne_overflow_of_returns hreturns')
  obtain ⟨_, hok⟩ := Update.exists_ok_of_returns hreturns .empty
  obtain ⟨_, hok'⟩ := Update.exists_ok_of_returns hreturns' .empty
  obtain ⟨-, rfl⟩ := EStateM.Result.ok.inj (hok.symm.trans hrun)
  obtain ⟨-, rfl⟩ := EStateM.Result.ok.inj (hok'.symm.trans hrun')
  have hcontents : (replyIndexed [writesReply, writesRoot]).table.toList.map (·.content) =
      [2, 1] := by decide +kernel
  have hcontents' : (replyIndexed [writesRoot, writesReply, writesRoot]).table.toList.map
      (·.content) = [1, 2] := by decide +kernel
  exact ⟨⟨F, hF⟩, hids, hcontents, hcontents'⟩

end TagCatalog
