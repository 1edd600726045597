import TagCatalog.Proofs.Upkeep

/-! Classifying open content leaves it with one entry for each topic its metadata declares. Entries
of other content stay as they are, and a fault comes before the first write. -/

namespace TagCatalog

namespace Classification

variable {cl : Classification} {t : Topic}

theorem mem_topics : t ∈ cl.topics ↔
    (∃ name ∈ cl.tags, Topic.tag name = t) ∨ (cl.language ≠ "" ∧ t = .language cl.language) := by
  by_cases hl : cl.language = ""
  · simp [topics, hl]
  · simp [topics, hl]

theorem ne_language_empty (ht : t ∈ cl.topics) : t ≠ .language "" := by
  rcases mem_topics.mp ht with ⟨name, -, rfl⟩ | ⟨hl, rfl⟩
  · simp [Topic.tag, Topic.language]
  · simpa [Topic.language] using hl

theorem nodup_topics (cl : Classification) : cl.topics.Nodup := by
  have htags : (cl.tags.toList.map Topic.tag).Nodup := by
    refine List.Nodup.map_on ?_ (cl.tags.distinct_toList.imp ?_)
    · intro a _ b _ hab
      exact congrArg Topic.name hab
    · rintro a b hab rfl
      exact hab Std.ReflCmp.compare_self
  unfold topics
  split
  · simpa using htags
  · refine List.nodup_append.mpr ⟨htags, by simp, ?_⟩
    intro a ha b hb hab
    obtain ⟨name, -, rfl⟩ := List.mem_map.mp ha
    obtain rfl := List.mem_singleton.mp hb
    exact absurd (congrArg Topic.kind hab) (by simp [Topic.tag, Topic.language])

end Classification

namespace Catalog

variable {s : Settings} {source : ContentSource} {c d d' : Catalog} {content : Content}
  {parent : Option Nat}

theorem stays_iff {e : Entry} (hname : e.topic ≠ .language "") (cl : Classification) :
    stays cl e = true ↔ e.topic ∈ cl.topics := by
  obtain ⟨k, name, hk⟩ : ∃ k name, e.topic = ⟨k, name⟩ := ⟨_, _, rfl⟩
  rw [hk] at hname
  rw [Classification.mem_topics]
  cases k with
  | tag => simp [stays, hk, Topic.tag, Topic.language]
  | language =>
    simp only [Topic.language, ne_eq, Topic.mk.injEq, true_and] at hname
    simp only [stays, hk, decide_eq_true_eq, Topic.tag, Topic.language, Topic.mk.injEq,
      reduceCtorEq, false_and, and_false, exists_false, true_and, false_or]
    exact ⟨fun hl => ⟨hl ▸ hname, hl⟩, fun hl => hl.2⟩

/-- The topics of a list have been placed: old entries under them are refreshed, and there is an
entry under each. -/
structure Placed (s : Settings) (content : Content) (parent : Option Nat) (topics : List Topic)
    (c d : Catalog) : Prop where
  sound : d.Sound
  old : ∀ id e, c.table.get? id = some e → d.table.get? id =
    some (if e.content = content.id ∧ e.topic ∈ topics then e.refreshed s content else e)
  new : ∀ id e, c.table.get? id = none → d.table.get? id = some e →
    e.topic ∈ topics ∧ e = { Entry.ofContent s e.topic parent content with id }
  there : ∀ t ∈ topics, ∃ id e, d.table.get? id = some e ∧ e.filing = ⟨t, content.id⟩

theorem Placed.nil (h : c.Sound) : Placed s content parent [] c c where
  sound := h
  old id e he := by simp [he]
  new id e hn he := by simp [hn] at he
  there := by simp

theorem Placed.filing_eq {done : List Topic} (h : Placed s content parent done c d) {id : Nat}
    {e : Entry} (he : c.table.get? id = some e) :
    ∃ a, d.table.get? id = some a ∧ a.filing = e.filing := by
  refine ⟨_, h.old id e he, ?_⟩
  split <;> rfl

theorem Placed.refresh {done : List Topic} (h : Placed s content parent done c d) (hc : c.Sound)
    {id : Nat} {e : Entry} (he : c.table.get? id = some e) (hcontent : e.content = content.id)
    (hd' : d'.Sound)
    (hentries : d'.table.entries = d.table.entries.insert id (e.refreshed s content)) :
    Placed s content parent (done ++ [e.topic]) c d' := by
  have hget (i : Nat) : d'.table.get? i =
      if id = i then some (e.refreshed s content) else d.table.get? i := by
    simp only [EntryTable.get?, hentries, getElem?_insert_eq]
  refine ⟨hd', ?_, ?_, ?_⟩
  · intro i a ha
    rw [hget]
    by_cases hi : id = i
    · subst hi
      obtain rfl := Option.some.inj (he.symm.trans ha)
      simp [hcontent]
    · -- Filings are unique, so that another entry of the content is not due at this topic.
      have hne (hac : a.content = content.id) : a.topic ≠ e.topic := by
        intro hat
        have hf : a.filing = e.filing := by simp [Entry.filing, hat, hac, hcontent]
        exact hi (hc.table.id_eq_of_filing he ha hf.symm)
      rw [if_neg hi, h.old i a ha]
      by_cases hac : a.content = content.id
      · simp [hac, hne hac]
      · simp [hac]
  · intro i a hi ha
    have hne : id ≠ i := by
      rintro rfl
      simp [hi] at he
    rw [hget, if_neg hne] at ha
    obtain ⟨hat, hae⟩ := h.new i a hi ha
    exact ⟨by simp [hat], hae⟩
  · intro t ht
    by_cases hte : t = e.topic
    · exact ⟨id, e.refreshed s content, by simp [hget], by
        simp [Entry.filing, Entry.refreshed, hte, hcontent]⟩
    · have hdone : t ∈ done := by simpa [hte] using ht
      obtain ⟨i, a, ha, haf⟩ := h.there t hdone
      by_cases hi : id = i
      · subst hi
        obtain ⟨b, hb, hbf⟩ := h.filing_eq he
        obtain rfl := Option.some.inj (ha.symm.trans hb)
        exact ⟨id, e.refreshed s content, by simp [hget], hbf.symm.trans haf⟩
      · exact ⟨i, a, by rw [hget, if_neg hi]; exact ha, haf⟩

theorem Placed.file {done : List Topic} (h : Placed s content parent done c d) {t : Topic}
    (hnone : ∀ id e, c.table.get? id = some e → e.content = content.id → e.topic ≠ t)
    (hd' : d'.Sound)
    (hentries : d'.table.entries = d.table.entries.insert d.table.nextId
      { Entry.ofContent s t parent content with id := d.table.nextId }) :
    Placed s content parent (done ++ [t]) c d' := by
  have hget (i : Nat) : d'.table.get? i = if d.table.nextId = i then
      some { Entry.ofContent s t parent content with id := d.table.nextId }
      else d.table.get? i := by
    simp only [EntryTable.get?, hentries, getElem?_insert_eq]
  have hfresh := h.sound.table.get?_nextId
  refine ⟨hd', ?_, ?_, ?_⟩
  · intro i a ha
    have hne : d.table.nextId ≠ i := by
      rintro rfl
      simp [h.old _ a ha] at hfresh
    rw [hget, if_neg hne, h.old i a ha]
    by_cases hac : a.content = content.id
    · simp [hac, hnone i a ha hac]
    · simp [hac]
  · intro i a hi ha
    rw [hget] at ha
    by_cases hne : d.table.nextId = i
    · rw [if_pos hne] at ha
      obtain rfl := Option.some.inj ha
      exact ⟨by simp [Entry.ofContent], by rw [hne]; rfl⟩
    · rw [if_neg hne] at ha
      obtain ⟨hat, hae⟩ := h.new i a hi ha
      exact ⟨by simp [hat], hae⟩
  · intro t' ht'
    by_cases hte : t' = t
    · exact ⟨d.table.nextId, _, by rw [hget, if_pos rfl], by rw [hte]; rfl⟩
    · have hdone : t' ∈ done := by simpa [hte] using ht'
      obtain ⟨i, a, ha, haf⟩ := h.there t' hdone
      have hne : d.table.nextId ≠ i := by
        rintro rfl
        simp [hfresh] at ha
      exact ⟨i, a, by rw [hget, if_neg hne]; exact ha, haf⟩

theorem yields_place {done : List Topic} (hc : c.Sound) (h : Placed s content parent done c d)
    {t : Topic} (ht : t ∉ done) (hname : t ≠ .language "") {kept : List Entry}
    (hkept : ∀ e, e ∈ kept → (∃ id, c.table.get? id = some e) ∧ e.content = content.id)
    (hall : ∀ id e, c.table.get? id = some e → e.content = content.id → e.topic = t → e ∈ kept) :
    Update.Yields (place s content parent kept t) d
      (fun _ d' => Placed s content parent (done ++ [t]) c d') fun _ _ => False := by
  unfold place
  split
  · rename_i e hfind
    obtain ⟨⟨id, he⟩, hcontent⟩ := hkept e (List.mem_of_find?_eq_some hfind)
    have htopic : e.topic = t := by simpa using List.find?_some hfind
    have hed := h.old id e he
    rw [if_neg (by simp [htopic, ht])] at hed
    rw [hc.table.id_eq id e he]
    refine (yields_refreshEntry h.sound s content hed).imp ?_
    intro _ d' hh
    obtain ⟨hd', -, hentries⟩ := hh
    exact htopic ▸ h.refresh hc he hcontent hd' hentries
  · rename_i hfind
    have hnone : ∀ id e, c.table.get? id = some e → e.content = content.id → e.topic ≠ t := by
      intro id e he hcontent htopic
      exact List.find?_eq_none.mp hfind e (hall id e he hcontent htopic) (by simpa using htopic)
    refine (yields_file h.sound hname ?_).imp ?_
    · intro id a ha hf
      have hat : a.topic = t := congrArg Filing.topic hf
      have hac : a.content = content.id := congrArg Filing.content hf
      -- A new entry is under a topic that is done; an old one of this topic would be kept.
      cases hcid : c.table.get? id with
      | none => exact ht (hat ▸ (h.new id a hcid ha).1)
      | some e =>
        obtain ⟨b, hb, hbe⟩ := h.filing_eq hcid
        obtain rfl := Option.some.inj (ha.symm.trans hb)
        refine hnone id e hcid ?_ ?_
        · exact (congrArg Filing.content hbe).symm.trans hac
        · exact (congrArg Filing.topic hbe).symm.trans hat
    · intro _ d' hh
      obtain ⟨hd', -, hentries⟩ := hh
      exact h.file hnone hd' hentries

theorem yields_placeAll (h : c.Sound) {topics : List Topic} (hn : topics.Nodup)
    (hname : ∀ t ∈ topics, t ≠ .language "") {kept : List Entry}
    (hkept : ∀ e, e ∈ kept ↔
      ((∃ id, c.table.get? id = some e) ∧ e.content = content.id) ∧ e.topic ∈ topics) :
    Update.Yields (topics.forM (place s content parent kept)) c
      (fun _ d => Placed s content parent topics c d) fun _ _ => False := by
  let I (rest : List Topic) (d : Catalog) : Prop :=
    ∃ done, done ++ rest = topics ∧ Placed s content parent done c d
  refine (Update.yields_forM (I := I) topics ?_ ⟨[], by simp, .nil h⟩).imp ?_
  · intro t rest d hh
    obtain ⟨done, hdone, hplaced⟩ := hh
    have hmem : t ∈ topics := by simp [← hdone]
    have hnot : t ∉ done := by
      rw [← hdone] at hn
      exact fun ht => List.disjoint_of_nodup_append hn ht (by simp)
    refine (yields_place h hplaced hnot (hname t hmem) (fun e he => ((hkept e).mp he).1) ?_).imp ?_
    · intro id e he hcontent htopic
      exact (hkept e).mpr ⟨⟨⟨id, he⟩, hcontent⟩, htopic ▸ hmem⟩
    · exact fun _ d' hd' => ⟨done ++ [t], by simpa using hdone, hd'⟩
  · intro _ d hh
    obtain ⟨done, hdone, hplaced⟩ := hh
    rw [List.append_nil] at hdone
    exact hdone ▸ hplaced

/-- What classifying content anew does to entries: its own that are under a topic of the list are
refreshed and its others are gone, those of other content stay, and each topic has one. -/
structure Reclassified (s : Settings) (content : Content) (parent : Option Nat)
    (topics : List Topic) (c d : Catalog) : Prop where
  old : ∀ id e, c.table.get? id = some e → d.table.get? id =
    if e.content ≠ content.id then some e
    else if e.topic ∈ topics then some (e.refreshed s content) else none
  new : ∀ id e, c.table.get? id = none → d.table.get? id = some e →
    e.topic ∈ topics ∧ e = { Entry.ofContent s e.topic parent content with id }
  there : ∀ t ∈ topics, ∃ id e, d.table.get? id = some e ∧ e.filing = ⟨t, content.id⟩

theorem Placed.reclassified {topics : List Topic} (h : Placed s content parent topics c d)
    (hthin : Thinned s (fun e => e.content ≠ content.id || e.topic ∈ topics) [] d d') :
    Reclassified s content parent topics c d' := by
  have hget (id : Nat) : d'.table.get? id =
      (d.table.get? id).filter fun e => e.content ≠ content.id || e.topic ∈ topics := by
    rw [hthin.2]
    cases (d.table.get? id).filter _ <;> rfl
  refine ⟨?_, ?_, ?_⟩
  · intro id e he
    rw [hget, h.old id e he]
    by_cases hcontent : e.content = content.id
    · by_cases htopic : e.topic ∈ topics
      · simp [Option.filter, hcontent, htopic, Entry.refreshed]
      · simp [Option.filter, hcontent, htopic]
    · simp [Option.filter, hcontent]
  · intro id e hid he
    rw [hget, Option.filter_eq_some_iff] at he
    exact h.new id e hid he.1
  · intro t ht
    obtain ⟨id, e, he, hf⟩ := h.there t ht
    have htopic : e.topic = t := congrArg Filing.topic hf
    exact ⟨id, e, by simp [hget, he, Option.filter, htopic, ht], hf⟩

theorem yields_present (h : c.Sound) (content : Nat) {ok : List Entry → Catalog → Prop}
    {failed : Fault → Catalog → Prop} (hok : ok (c.entriesOfContent content) c) :
    Update.Yields ((c.table.idsOfContent content).mapM requireEntry) c ok failed := by
  have hlive : ∀ id ∈ c.table.idsOfContent content, ∃ e, c.table.get? id = some e := by
    intro id hid
    obtain ⟨e, he, -⟩ := h.table.mem_idsOfContent.mp hid
    exact ⟨e, he⟩
  refine Update.yields_mapM_read c.table.get? _ ?_ ?_ hok
  · intro id hid a ha
    simp only [yields_requireEntry, ha]
    exact ⟨fun e he => ⟨(Option.some.inj he).symm, trivial⟩, by simp⟩
  · intro id hid
    exact Option.isSome_iff_exists.mpr (hlive id hid)

theorem mem_entriesOfContent (h : c.Sound) {content : Nat} {e : Entry} :
    e ∈ c.entriesOfContent content ↔ (∃ id, c.table.get? id = some e) ∧ e.content = content := by
  simp only [entriesOfContent, List.mem_filterMap, h.table.mem_idsOfContent]
  constructor
  · intro hh
    obtain ⟨id, ⟨a, ha, hac⟩, he⟩ := hh
    obtain rfl := Option.some.inj (ha.symm.trans he)
    exact ⟨⟨id, he⟩, hac⟩
  · intro hh
    obtain ⟨⟨id, he⟩, hec⟩ := hh
    exact ⟨id, ⟨e, he, hec⟩, he⟩

theorem mem_filter_entriesOfContent (h : c.Sound) {content : Nat} {keep : Entry → Bool}
    {p : Topic → Prop}
    (hkeep : ∀ id e, c.table.get? id = some e → (keep e = true ↔ p e.topic)) (e : Entry) :
    e ∈ (c.entriesOfContent content).filter keep ↔
      ((∃ id, c.table.get? id = some e) ∧ e.content = content) ∧ p e.topic := by
  rw [List.mem_filter, mem_entriesOfContent h]
  refine and_congr_right ?_
  intro hh
  obtain ⟨⟨id, he⟩, -⟩ := hh
  exact hkeep id e he

theorem map_id_entriesOfContent (h : c.Sound) (content : Nat) :
    (c.entriesOfContent content).map (·.id) = c.table.idsOfContent content := by
  have hall : ∀ id ∈ c.table.idsOfContent content, (c.table.get? id).map (·.id) = some id := by
    intro id hid
    obtain ⟨e, he, -⟩ := h.table.mem_idsOfContent.mp hid
    simp [he, h.table.id_eq id e he]
  rw [entriesOfContent, List.map_filterMap]
  generalize c.table.idsOfContent content = ids at hall ⊢
  induction ids with
  | nil => rfl
  | cons id ids ih =>
    have hid := hall id (by simp)
    rw [List.filterMap_cons, hid, ih fun i hi => hall i (by simp [hi])]

theorem Placed.mem_stale {topics : List Topic} (h : Placed s content parent topics c d)
    (hc : c.Sound) {stale : List Entry} (hstale : ∀ e, e ∈ stale ↔
      ((∃ id, c.table.get? id = some e) ∧ e.content = content.id) ∧ e.topic ∉ topics) (id : Nat) :
    id ∈ stale.map (·.id) ↔ ∃ e, d.table.get? id = some e ∧
      (e.content ≠ content.id || e.topic ∈ topics : Bool) = false := by
  simp only [List.mem_map, hstale]
  constructor
  · intro hh
    obtain ⟨e, ⟨⟨⟨i, he⟩, hcontent⟩, htopic⟩, hid⟩ := hh
    have hi : i = id := (hc.table.id_eq i e he).symm.trans hid
    exact ⟨e, by simp [h.old id e (hi ▸ he), htopic], by simp [hcontent, htopic]⟩
  · intro hh
    obtain ⟨e, he, hkeep⟩ := hh
    simp only [ne_eq, decide_not, Bool.or_eq_false_iff, Bool.not_eq_false', decide_eq_true_eq,
      decide_eq_false_iff_not] at hkeep
    obtain ⟨hcontent, htopic⟩ := hkeep
    cases hid : c.table.get? id with
    | none => exact absurd (h.new id e hid he).1 htopic
    | some a =>
      obtain ⟨b, hb, hba⟩ := h.filing_eq hid
      obtain rfl := Option.some.inj (he.symm.trans hb)
      have hat : a.topic = e.topic := (congrArg Filing.topic hba).symm
      have hac : a.content = e.content := (congrArg Filing.content hba).symm
      exact ⟨a, ⟨⟨⟨id, hid⟩, hac.trans hcontent⟩, hat ▸ htopic⟩, hc.table.id_eq id a hid⟩

/-- Why content is not classified: it is not there, its payout window is closed, or what it replies to
is not there. -/
inductive Refused (source : ContentSource) (a : Address) : Fault → Prop
  | missing (h : source.at? a = none) : Refused source a (.contentNotFound a)
  | closed (content : Content) (h : source.at? a = some content) (hclosed : content.isOpen = false) :
    Refused source a (.outsidePayoutWindow a)
  | orphaned (content : Content) (h : source.at? a = some content) (b : Address)
    (hparent : content.parent? = some b) (hmissing : source.at? b = none) :
    Refused source a (.contentNotFound b)

theorem Refused.ofLedger {a : Address} {f : Fault} (h : Refused source a f)
    (hat : source.at? a = some content) (hopen : content.isOpen = true) : f.OfLedger s source := by
  cases h with
  | missing hnone => exact .inl ⟨a, hnone, rfl⟩
  | closed content' hat' hclosed =>
    obtain rfl := Option.some.inj (hat.symm.trans hat')
    simp [hopen] at hclosed
  | orphaned content' hat' b hparent hnone => exact .inl ⟨b, hnone, rfl⟩

theorem yields_classify (h : c.Sound) (a : Address) :
    Update.Yields (classify s source a) c
      (fun _ d => d.Sound ∧ ∃ content, source.at? a = some content ∧ content.isOpen = true ∧
        Reclassified s content ((source.parent? content).map (·.id))
          (source.classify s content).topics c d)
      fun f d => d = c ∧ Refused source a f := by
  simp only [classify, Update.yields_bind, yields_requireContent]
  refine ⟨fun content hcontent => ?_, fun ha => ⟨trivial, .missing ha⟩⟩
  split
  case isFalse hopen => exact ⟨rfl, .closed content hcontent (by simpa using hopen)⟩
  rename_i hopen
  have hstays : ∀ id e, c.table.get? id = some e →
      (stays (source.classify s content) e = true ↔ e.topic ∈ (source.classify s content).topics) :=
    fun id e he => stays_iff (h.named id e he) _
  have hstale : ∀ id e, c.table.get? id = some e → ((!stays (source.classify s content) e) = true ↔
      e.topic ∉ (source.classify s content).topics) := by
    intro id e he
    rw [Bool.not_eq_true', ← Bool.not_eq_true, hstays id e he]
  rw [Update.yields_bind]
  refine yields_requireParent content (fun parent hparent => ?_)
    fun b hparent hb => ⟨rfl, .orphaned content hcontent b hparent hb⟩
  simp only [Update.yields_bind, Update.yields_get, Update.yields_pure]
  refine yields_present h content.id ?_
  refine (yields_placeAll h (Classification.nodup_topics _)
    (fun _ => Classification.ne_language_empty)
    (mem_filter_entriesOfContent h hstays)).mono ?_ (fun _ _ => False.elim)
  intro _ d hplaced
  refine (yields_withdrawRest (s := s) hplaced.sound
    (fun e => e.content ≠ content.id || e.topic ∈ (source.classify s content).topics)
    Entry.id _ ?_ ?_).mono ?_ (fun _ _ => False.elim)
  · refine List.Nodup.sublist (List.filter_sublist.map _) ?_
    rw [map_id_entriesOfContent h]
    exact EntryTable.Coherent.nodup_idsOfContent _ _
  · exact hplaced.mem_stale h (mem_filter_entriesOfContent
      (p := fun t => t ∉ (source.classify s content).topics) h hstale)
  · intro _ d' hh
    obtain ⟨hd', hthin⟩ := hh
    refine ⟨hd', content, hcontent, hopen, ?_⟩
    rw [hparent]
    exact hplaced.reclassified hthin

end Catalog

end TagCatalog
