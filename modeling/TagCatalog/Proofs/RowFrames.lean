import TagCatalog.Proofs.Balances
import TagCatalog.Proofs.EntryEdits

/-! When a row stays as it is. In a sound catalog it is told by the entries of its key and by what
was paid, so that nothing but these has to be compared. -/

namespace TagCatalog

namespace Catalog

variable {c d : Catalog} {topic : Topic} {author : String}

theorem isSome_topic?_iff (h : c.Sound) :
    (c.totals.topic? topic).isSome = true ↔ ∃ id e, c.table.get? id = some e ∧ e.topic = topic := by
  have hrow := h.totals.topics.mem_iff topic
  rw [Std.ExtTreeMap.mem_iff_isSome_getElem?] at hrow
  exact hrow.trans EntryTable.exists_mem_toList

theorem isSome_author?_iff (h : c.Sound) : (c.totals.author? author topic).isSome = true ↔
    ∃ id e, c.table.get? id = some e ∧ e.authorship = ⟨author, topic⟩ := by
  have hrow := h.totals.authors.mem_iff ⟨author, topic⟩
  rw [Std.ExtTreeMap.mem_iff_isSome_getElem?] at hrow
  exact hrow.trans EntryTable.exists_mem_toList

theorem mem_languages_iff (h : c.Sound) {name : String} :
    name ∈ c.totals.languages ↔ ∃ id e, c.table.get? id = some e ∧ e.topic = .language name :=
  (h.totals.languages name).trans EntryTable.exists_mem_toList

theorem topic?_eq (hc : c.Sound) (hd : d.Sound)
    (hsame : ∀ id e, e.topic = topic → (d.table.get? id = some e ↔ c.table.get? id = some e))
    (hpaid : ∀ x y, c.balance? (.topic topic) = some x → d.balance? (.topic topic) = some y → y = x) :
    d.totals.topic? topic = c.totals.topic? topic := by
  have hmem (e : Entry) (he : e.topic = topic) : e ∈ d.table.toList ↔ e ∈ c.table.toList := by
    simp only [EntryTable.mem_toList]
    exact exists_congr fun id => hsame id e he
  have hnodup {t : EntryTable} (ht : t.Coherent) : (t.toList.filter (·.topic = topic)).Nodup :=
    (ht.nodup_ids_filter _).of_map
  have hperm : (d.table.toList.filter (·.topic = topic)).Perm
      (c.table.toList.filter (·.topic = topic)) := by
    rw [List.perm_ext_iff_of_nodup (hnodup hd.table) (hnodup hc.table)]
    intro e
    simp only [List.mem_filter, decide_eq_true_eq]
    exact and_congr_left (hmem e)
  refine hd.totals.topics.getElem?_eq hc.totals.topics ?_ fun row row' hrow hrow' => ?_
  · exact exists_congr fun e => and_congr_left (hmem e)
  · have hpayout : row.payout = row'.payout := by
      refine hpaid row'.payout row.payout ?_ ?_
      · exact congrArg (Option.map TopicTotals.payout) hrow'
      · exact congrArg (Option.map TopicTotals.payout) hrow
    rw [hpayout]
    exact TopicTotals.recount_local topic _ _ row' hperm

theorem author?_eq (hc : c.Sound) (hd : d.Sound)
    (hsame : ∀ id, (d.table.get? id).any (·.authorship = ⟨author, topic⟩) =
      (c.table.get? id).any (·.authorship = ⟨author, topic⟩))
    (hpaid : ∀ x y, c.balance? (.author author topic) = some x →
      d.balance? (.author author topic) = some y → y = x) :
    d.totals.author? author topic = c.totals.author? author topic := by
  have hany (id : Nat) : (∃ e, d.table.get? id = some e ∧ e.authorship = ⟨author, topic⟩) ↔
      ∃ e, c.table.get? id = some e ∧ e.authorship = ⟨author, topic⟩ := by
    have hid := Bool.eq_iff_iff.mp (hsame id)
    simpa only [Option.any_eq_true, decide_eq_true_eq] using hid
  have hcount : d.table.toList.countP (·.authorship = ⟨author, topic⟩) =
      c.table.toList.countP (·.authorship = ⟨author, topic⟩) := by
    rw [hd.table.countP_toList (hc.table.nodup_ids_filter (·.authorship = ⟨author, topic⟩)),
      List.length_map, List.countP_eq_length_filter]
    intro id
    rw [hc.table.mem_ids_filter]
    simpa only [decide_eq_true_eq] using (hany id).symm
  refine hd.totals.authors.getElem?_eq hc.totals.authors ?_ fun row row' hrow hrow' => ?_
  · rw [EntryTable.exists_mem_toList, EntryTable.exists_mem_toList]
    exact exists_congr hany
  · have hrewards : row.rewards = row'.rewards := by
      refine hpaid row'.rewards row.rewards ?_ ?_
      · exact congrArg (Option.map AuthorTotals.rewards) hrow'
      · exact congrArg (Option.map AuthorTotals.rewards) hrow
    simp only [AuthorTotals.recount, hrewards, hcount]

/-- A sound catalog is told by its entries, the next id and what was paid. -/
theorem Sound.ext (hc : c.Sound) (hd : d.Sound) (hnext : d.table.nextId = c.table.nextId)
    (hget : ∀ id, d.table.get? id = c.table.get? id)
    (hcarries : c.totals.Carries d.totals) : d = c := by
  have htable : d.table = c.table := hd.table.ext hc.table hnext hget
  have htopics : d.totals.topics = c.totals.topics := Std.ExtTreeMap.ext_getElem? fun {topic} =>
    topic?_eq hc hd (fun id e _ => by rw [hget]) fun _ _ hx hy => hcarries.balance_eq hx hy
  have hauthors : d.totals.authors = c.totals.authors := Std.ExtTreeMap.ext_getElem? fun {key} =>
    author?_eq hc hd (fun id => by rw [hget]) fun _ _ hx hy => hcarries.balance_eq hx hy
  have hlanguages : d.totals.languages = c.totals.languages := Std.ExtTreeSet.ext_mem fun {name} => by
    rw [mem_languages_iff hd, mem_languages_iff hc]
    simp only [hget]
  have htotals : d.totals = c.totals := by
    rw [show d.totals = ⟨d.totals.topics, d.totals.authors, d.totals.languages⟩ from rfl, htopics,
      hauthors, hlanguages]
  rw [show d = ⟨d.table, d.totals⟩ from rfl, htable, htotals]

/-- The same entries, rows and languages are there, whatever they hold. -/
structure Standing (c d : Catalog) : Prop where
  entries : ∀ id, (d.table.get? id).isSome = (c.table.get? id).isSome
  topics : ∀ topic, (d.totals.topic? topic).isSome = (c.totals.topic? topic).isSome
  authors : ∀ author topic,
    (d.totals.author? author topic).isSome = (c.totals.author? author topic).isSome
  languages : d.totals.languages = c.totals.languages

theorem Standing.of_authorships (hc : c.Sound) (hd : d.Sound)
    (h : ∀ id, (d.table.get? id).map Entry.authorship = (c.table.get? id).map Entry.authorship) :
    c.Standing d := by
  have hkey {p : Authorship → Prop} : (∃ id e, d.table.get? id = some e ∧ p e.authorship) ↔
      ∃ id e, c.table.get? id = some e ∧ p e.authorship := by
    refine exists_congr fun id => ?_
    have hid := h id
    cases hde : d.table.get? id with
    | none =>
      rw [hde, Option.map_none, eq_comm, Option.map_eq_none_iff] at hid
      simp [hid]
    | some e =>
      rw [hde, Option.map_some, eq_comm] at hid
      obtain ⟨e', he', hauthorship⟩ := Option.map_eq_some_iff.mp hid
      simp [he', hauthorship]
  refine ⟨fun id => ?_, fun topic => ?_, fun author topic => ?_, ?_⟩
  · simpa only [Option.isSome_map] using congrArg Option.isSome (h id)
  · rw [Bool.eq_iff_iff, isSome_topic?_iff hd, isSome_topic?_iff hc]
    exact hkey (p := fun key => key.topic = topic)
  · rw [Bool.eq_iff_iff, isSome_author?_iff hd, isSome_author?_iff hc]
    exact hkey (p := fun key => key = ⟨author, topic⟩)
  · apply Std.ExtTreeSet.ext_mem
    intro name
    rw [mem_languages_iff hd, mem_languages_iff hc]
    exact hkey (p := fun key => key.topic = .language name)

end Catalog

end TagCatalog
