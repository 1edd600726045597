import TagCatalog.Proofs.Conservation
import TagCatalog.Proofs.TopicDiff

/-! Reports against the entries. What an operation counts as created, removed and refreshed is what
differs between the catalogs before and after it, and the counts of a replay add up to what is left. -/

namespace TagCatalog

/-- A report counts the ids that came, those that went, and, if no content was gone through twice, those
of its contents that stayed. -/
structure Report.Balances (r : Report) (c d : Catalog) : Prop where
  created : r.created = d.table.toList.countP fun e => (c.table.get? e.id).isNone
  removed : r.removed = c.table.toList.countP fun e => (d.table.get? e.id).isNone
  size : d.table.size + r.removed = c.table.size + r.created
  refreshed : r.visited.Nodup → r.refreshed = d.table.toList.countP fun e =>
    (c.table.get? e.id).isSome && r.visited.contains e.content

namespace Catalog

variable {s : Settings} {source : ContentSource} {c d : Catalog} {path : List Content} {r : Report}

theorem balances_of_counts (hc : c.Sound) (hd : d.Sound)
    (hcreated : r.created = d.table.toList.countP fun e => (c.table.get? e.id).isNone)
    (hremoved : r.removed = c.table.toList.countP fun e => (d.table.get? e.id).isNone)
    (hrefreshed : r.visited.Nodup → r.refreshed = d.table.toList.countP fun e =>
      (c.table.get? e.id).isSome && r.visited.contains e.content) : r.Balances c d := by
  refine ⟨hcreated, hremoved, ?_, hrefreshed⟩
  have hsize := hd.table.size_add hc.table
  omega

theorem countP_toList_congr (h : c.Sound) {p q : Entry → Bool}
    (hpq : ∀ id e, c.table.get? id = some e → e.id = id → p e = q e) :
    c.table.toList.countP p = c.table.toList.countP q := by
  refine List.countP_congr fun e he => ?_
  obtain ⟨id, hid⟩ := EntryTable.mem_toList.mp he
  rw [hpq id e hid (h.table.id_eq id e hid)]

theorem Thinned.balances {keep : Entry → Bool} (h : Thinned s keep path c d) (hc : c.Sound)
    (hd : d.Sound) (hcreated : r.created = 0)
    (hremoved : r.removed = c.table.toList.countP (!keep ·))
    (hrefreshed : r.visited.Nodup →
      r.refreshed = d.table.toList.countP (r.visited.contains ·.content)) : r.Balances c d := by
  have hstayed (id : Nat) (e : Entry) (he : d.table.get? id = some e) :
      (c.table.get? id).isSome = true := by
    rw [h.2, Option.map_eq_some_iff] at he
    obtain ⟨old, hold, -⟩ := he
    rw [(Option.filter_eq_some_iff.mp hold).1]
    rfl
  refine balances_of_counts hc hd ?_ ?_ fun hn => ?_
  · rw [hcreated, eq_comm, List.countP_eq_zero]
    intro e he
    obtain ⟨id, hid⟩ := EntryTable.mem_toList.mp he
    rw [hd.table.id_eq id e hid, ← Option.not_isSome, hstayed id e hid]
    simp
  · rw [hremoved]
    refine countP_toList_congr hc fun id e he hid => ?_
    rw [hid, h.2, he]
    cases hk : keep e <;> simp [Option.filter, hk]
  · rw [hrefreshed hn]
    refine countP_toList_congr hd fun id e he hid => ?_
    rw [hid, hstayed id e he, Bool.true_and]

theorem refreshed_refreshReport (h : d.Sound) (hn : (path.map (·.id)).Nodup) :
    (d.refreshReport path).refreshed =
      d.table.toList.countP ((path.map (·.id)).contains ·.content) := by
  -- The refresh goes through this list, and an entry is in it at the place of its one content.
  let ids := (path.map (·.id)).flatMap d.table.idsOfContent
  have hmem (id : Nat) : id ∈ ids ↔
      ∃ e, d.table.get? id = some e ∧ (path.map (·.id)).contains e.content = true := by
    simp only [ids, List.mem_flatMap, h.table.mem_idsOfContent, List.contains_iff_mem]
    constructor
    · intro hh
      obtain ⟨content, hcontent, e, he, rfl⟩ := hh
      exact ⟨e, he, hcontent⟩
    · intro hh
      obtain ⟨e, he, hcontent⟩ := hh
      exact ⟨e.content, hcontent, e, he, rfl⟩
  have hnodup : ids.Nodup := by
    refine List.nodup_flatMap.mpr
      ⟨fun content _ => EntryTable.Coherent.nodup_idsOfContent _ content, hn.imp ?_⟩
    intro a b hab id ha hb
    obtain ⟨e, he, hea⟩ := h.table.mem_idsOfContent.mp ha
    obtain ⟨e', he', heb⟩ := h.table.mem_idsOfContent.mp hb
    obtain rfl := Option.some.inj (he.symm.trans he')
    exact hab (hea.symm.trans heb)
  rw [h.table.countP_toList hnodup hmem]
  simp only [ids, List.length_flatMap, List.map_map, refreshReport]
  rfl

theorem Refreshed.balances (h : Refreshed s path c d) (hc : c.Sound) (hd : d.Sound) :
    (d.refreshReport path).Balances c d := by
  refine h.thinned.balances hc hd rfl ?_ fun hn => refreshed_refreshReport hd hn
  simp [refreshReport]

theorem balances_refl (hc : c.Sound) : ({} : Report).Balances c c :=
  (Refreshed.refl (s := {}) c).balances hc hc

theorem countP_eq_card (h : c.Sound) (content : Nat) {p : Entry → Bool} {topics : Finset Topic}
    (hp : ∀ id e, c.table.get? id = some e → p e = true → e.content = content)
    (htopics : ∀ topic, topic ∈ topics ↔
      ∃ id e, c.table.get? id = some e ∧ p e = true ∧ e.topic = topic) :
    c.table.toList.countP p = topics.card := by
  have hmem (e : Entry) : e ∈ c.table.toList.filter p ↔
      ∃ id, c.table.get? id = some e ∧ p e = true := by
    rw [List.mem_filter, EntryTable.mem_toList]
    exact exists_and_right.symm
  have hnodup : ((c.table.toList.filter p).map (·.topic)).Nodup := by
    refine List.Nodup.map_on ?_ (h.table.nodup_ids_filter p).of_map
    intro a ha b hb hab
    obtain ⟨i, hi, hpa⟩ := (hmem a).mp ha
    obtain ⟨j, hj, hpb⟩ := (hmem b).mp hb
    have hfiling : a.filing = b.filing := by
      rw [Entry.filing, Entry.filing, hab, hp i a hi hpa, hp j b hj hpb]
    -- A filing has one entry.
    obtain rfl := h.table.id_eq_of_filing hi hj hfiling
    exact Option.some.inj (hi.symm.trans hj)
  rw [List.countP_eq_length_filter, ← List.length_map (·.topic),
    ← List.toFinset_card_of_nodup hnodup]
  congr 1
  ext topic
  simp only [List.mem_toFinset, List.mem_map, hmem, htopics]
  constructor
  · intro hh
    obtain ⟨e, ⟨id, he, hpe⟩, htopic⟩ := hh
    exact ⟨id, e, he, hpe, htopic⟩
  · intro hh
    obtain ⟨id, e, he, hpe, htopic⟩ := hh
    exact ⟨e, ⟨id, he, hpe⟩, htopic⟩

variable {written : Content} {parent : Option Nat} {topics : List Topic}

theorem Reclassified.count_created (h : Reclassified s written parent topics c d) (hc : c.Sound)
    (hd : d.Sound) :
    d.table.toList.countP (fun e => (c.table.get? e.id).isNone) =
      (topics.toFinset \ c.topicSet written.id).card := by
  have hnew {id : Nat} {e : Entry} (he : d.table.get? id = some e)
      (hnone : (c.table.get? e.id).isNone = true) : c.table.get? id = none := by
    rwa [hd.table.id_eq id e he, Option.isNone_iff_eq_none] at hnone
  refine countP_eq_card hd written.id ?_ fun topic => ?_
  · intro id e he hnone
    exact congrArg Entry.content (h.new id e (hnew he hnone) he).2
  rw [Finset.mem_sdiff, List.mem_toFinset, mem_topicSet hc]
  constructor
  · intro hh
    obtain ⟨htopic, hold⟩ := hh
    obtain ⟨id, e, he, hfiling⟩ := h.there topic htopic
    have het : e.topic = topic := congrArg Filing.topic hfiling
    refine ⟨id, e, he, ?_, het⟩
    rcases h.entry_cases he (congrArg Filing.content hfiling) with ⟨hnone, -⟩ | ⟨old, ho, hoc, rfl⟩
    · rw [hd.table.id_eq id e he, hnone]
      rfl
    · exact absurd ⟨id, old, ho, hoc, het⟩ hold
  · intro hh
    obtain ⟨id, e, he, hnone, rfl⟩ := hh
    obtain ⟨htopic, hmade⟩ := h.new id e (hnew he hnone) he
    refine ⟨htopic, fun hh => ?_⟩
    obtain ⟨i, old, ho, hoc, hot⟩ := hh
    obtain rfl := h.id_eq_of_topic hd ho he hoc (congrArg Entry.content hmade) hot
    cases ho.symm.trans (hnew he hnone)

theorem Reclassified.count_removed (h : Reclassified s written parent topics c d) (hc : c.Sound) :
    c.table.toList.countP (fun e => (d.table.get? e.id).isNone) =
      (c.topicSet written.id \ topics.toFinset).card := by
  have hgone {id : Nat} {e : Entry} (he : c.table.get? id = some e) :
      (d.table.get? e.id).isNone = true ↔ e.content = written.id ∧ e.topic ∉ topics := by
    rw [hc.table.id_eq id e he, h.old id e he]
    by_cases hcontent : e.content = written.id
    · by_cases htopic : e.topic ∈ topics <;> simp [hcontent, htopic]
    · simp [hcontent]
  refine countP_eq_card hc written.id (fun id e he hnone => ((hgone he).mp hnone).1) ?_
  intro topic
  rw [Finset.mem_sdiff, List.mem_toFinset, mem_topicSet hc]
  constructor
  · intro hh
    obtain ⟨⟨id, e, he, hcontent, rfl⟩, htopic⟩ := hh
    exact ⟨id, e, he, (hgone he).mpr ⟨hcontent, htopic⟩, rfl⟩
  · intro hh
    obtain ⟨id, e, he, hnone, rfl⟩ := hh
    obtain ⟨hcontent, htopic⟩ := (hgone he).mp hnone
    exact ⟨⟨id, e, he, hcontent, rfl⟩, htopic⟩

theorem Reclassified.count_refreshed (h : Reclassified s written parent topics c d) (hc : c.Sound)
    (hd : d.Sound) :
    d.table.toList.countP (fun e => (c.table.get? e.id).isSome && [written.id].contains e.content) =
      (topics.toFinset ∩ c.topicSet written.id).card := by
  have hstayed {id : Nat} {e : Entry} (he : d.table.get? id = some e) :
      ((c.table.get? e.id).isSome && [written.id].contains e.content) = true ↔
        (∃ old, c.table.get? id = some old) ∧ e.content = written.id := by
    rw [hd.table.id_eq id e he, Bool.and_eq_true, Option.isSome_iff_exists, List.contains_iff_mem,
      List.mem_singleton]
  refine countP_eq_card hd written.id (fun id e he hk => ((hstayed he).mp hk).2) ?_
  intro topic
  rw [Finset.mem_inter, List.mem_toFinset, mem_topicSet hc]
  constructor
  · intro hh
    obtain ⟨htopic, id, old, ho, hoc, rfl⟩ := hh
    have he : d.table.get? id = some (old.refreshed s written) := by
      rw [h.old id old ho, if_neg (by simpa using hoc), if_pos htopic]
    exact ⟨id, _, he, (hstayed he).mpr ⟨⟨old, ho⟩, hoc⟩, rfl⟩
  · intro hh
    obtain ⟨id, e, he, hk, rfl⟩ := hh
    obtain ⟨⟨a, ha⟩, hcontent⟩ := (hstayed he).mp hk
    refine ⟨h.topic_mem he hcontent, ?_⟩
    rcases h.entry_cases he hcontent with ⟨hnone, -⟩ | ⟨old, ho, hoc, rfl⟩
    · cases ha.symm.trans hnone
    · exact ⟨id, old, ho, hoc, rfl⟩

theorem Reclassified.balances (h : Reclassified s written parent topics c d) (hc : c.Sound)
    (hd : d.Sound) :
    (Report.ofDiff (c.topicSet written.id) topics.toFinset written.id).Balances c d :=
  balances_of_counts hc hd (h.count_created hc hd).symm (h.count_removed hc).symm
    fun _ => (h.count_refreshed hc hd).symm

theorem yields_apply_balances (h : c.Sound) (op : Operation) :
    Update.Yields (apply s source op) c (fun r d => d.Sound ∧ r.Balances c d ∧
      d.table.nextId = c.table.nextId + r.created) fun _ _ => True := by
  have hsame : c.Sound ∧ ({} : Report).Balances c c ∧ c.table.nextId = c.table.nextId + 0 :=
    ⟨h, balances_refl h, rfl⟩
  have hpath {path : List Content} {r : Report} {d : Catalog}
      (hh : d.Sound ∧ Refreshed s path c d ∧ r = d.refreshReport path) :
      d.Sound ∧ r.Balances c d ∧ d.table.nextId = c.table.nextId + r.created := by
    obtain ⟨hd, hrefreshed, rfl⟩ := hh
    exact ⟨hd, hrefreshed.balances h hd, hrefreshed.1⟩
  cases op with
  | comment a parentAuthor parentPermlink =>
    simp only [apply, Update.yields_bind, yields_requireContent, implies_true, and_true]
    intro content _
    split
    · refine ((yields_classify h a).and (yields_classify_report h a)).mono ?_ fun _ _ _ => trivial
      intro r d hh
      obtain ⟨⟨hd, content, hcontent, -, heffect⟩, content', hcontent', hreport, hissues⟩ := hh
      obtain rfl := Option.some.inj (hcontent.symm.trans hcontent')
      exact ⟨hd, hreport ▸ heffect.balances h hd, hissues.nextId⟩
    · exact hsame
  | vote voter a weight =>
    exact (yields_refresh h a).mono (fun _ _ hh => hpath hh) fun _ _ _ => trivial
  | reward a payout =>
    exact (yields_reward h a payout).mono (fun _ _ hh => hpath hh) fun _ _ _ => trivial
  | payoutUpdate a =>
    simp only [apply, Update.yields_bind, yields_requireContent, implies_true, and_true]
    intro content _
    split
    · exact (yields_refresh h a).mono (fun _ _ hh => hpath hh) fun _ _ _ => trivial
    · refine (yields_withdraw h a).mono ?_ fun _ _ _ => trivial
      intro r d hh
      obtain ⟨hd, content, -, hthin, rfl⟩ := hh
      refine ⟨hd, hthin.balances h hd rfl ?_ fun hn => refreshed_refreshReport hd hn, hthin.1⟩
      symm
      refine h.table.countP_toList (EntryTable.Coherent.nodup_idsOfContent _ content.id) fun id => ?_
      simp [h.table.mem_idsOfContent]
  | delete a =>
    refine ((yields_sweep (s := s) h a.author).and (yields_sweep_count h)).mono ?_ fun _ _ _ => trivial
    intro r d hh
    obtain ⟨⟨hd, hthin⟩, rfl⟩ := hh
    refine ⟨hd, hthin.balances h hd rfl ?_ fun _ => ?_, hthin.1⟩
    · simp only [Bool.not_not]
      rfl
    · simp
  | transfer sender recipient amount memo => exact hsame
  | other => exact hsame

end Catalog

end TagCatalog
