import TagCatalog.Proofs.Reclassification

/-! What an operation of the ledger does to the entries of a sound catalog, whether it returns or
stops at a fault. The faults are those of the ledger, and a deletion has none. -/

namespace TagCatalog

namespace Catalog

variable {s : Settings} {source : ContentSource} {c d : Catalog}

def isOrphan (source : ContentSource) (author : String) (e : Entry) : Bool :=
  e.author = author && (source.byId? e.content).isNone

/-- How the entries of two catalogs compare, one before and one after an operation. -/
def Effect (s : Settings) (source : ContentSource) (returned : Bool) (op : Operation)
    (c d : Catalog) : Prop :=
  match op with
  | .comment a _ _ =>
    match source.at? a with
    | some content =>
      if returned && content.isOpen then
        Reclassified s content ((source.parent? content).map (·.id))
          (source.classify s content).topics c d
      else d = c
    | none => d = c
  | .vote _ a _ | .reward a _ => Refreshed s (source.pathAt s a) c d
  | .payoutUpdate a =>
    match source.at? a with
    | some content =>
      if content.isOpen then Refreshed s (source.pathAt s a) c d
      else Thinned s (fun e => e.content ≠ content.id) (source.pathAbove s content) c d
    | none => d = c
  | .delete a => Thinned s (fun e => !isOrphan source a.author e) [] c d
  | .transfer .. | .other => d = c

theorem yields_apply (h : c.Sound) (op : Operation) :
    Update.Yields (apply s source op) c
      (fun _ d => d.Sound ∧ Effect s source true op c d)
      fun f d => f.OfLedger s source ∧ d.Sound ∧ Effect s source false op c d := by
  have hrefresh (a : Address) : Update.Yields (refresh s source a) c
      (fun _ d => d.Sound ∧ Refreshed s (source.pathAt s a) c d)
      fun f d => f.OfLedger s source ∧ d.Sound ∧ Refreshed s (source.pathAt s a) c d :=
    (yields_refresh h a).imp fun _ _ hh => ⟨hh.1, hh.2.1⟩
  cases op with
  | comment a parentAuthor parentPermlink =>
    simp only [apply, Effect, Update.yields_bind, yields_requireContent]
    refine ⟨fun content hcontent => ?_, fun ha => ⟨.inl ⟨a, ha, rfl⟩, h, by simp [ha]⟩⟩
    by_cases hopen : content.isOpen = true
    · rw [if_pos hopen]
      refine (yields_classify h a).mono ?_ ?_
      · intro _ d hh
        obtain ⟨hd, content', hcontent', -, heffect⟩ := hh
        obtain rfl := Option.some.inj (hcontent.symm.trans hcontent')
        exact ⟨hd, by simpa [hcontent, hopen] using heffect⟩
      · intro f d hh
        obtain ⟨rfl, hf⟩ := hh
        exact ⟨hf.ofLedger hcontent hopen, h, by simp [hcontent]⟩
    · rw [if_neg hopen]
      exact ⟨h, by simp [hcontent, hopen]⟩
  | vote voter a weight => exact hrefresh a
  | reward a payout => exact (yields_reward h a payout).imp fun _ _ hh => ⟨hh.1, hh.2.1⟩
  | payoutUpdate a =>
    simp only [apply, Effect, Update.yields_bind, yields_requireContent]
    refine ⟨fun content hcontent => ?_, fun ha => ⟨.inl ⟨a, ha, rfl⟩, h, by simp [ha]⟩⟩
    by_cases hopen : content.isOpen = true
    · simpa [hcontent, hopen] using hrefresh a
    · simp only [hcontent, hopen]
      refine (yields_withdraw h a).mono ?_ ?_
      · intro _ d hh
        obtain ⟨hd, content', hcontent', hthin, -⟩ := hh
        obtain rfl := Option.some.inj (hcontent.symm.trans hcontent')
        exact ⟨hd, hthin⟩
      · intro f d hh
        obtain ⟨hf, hd, hthin⟩ := hh
        rw [hcontent] at hthin
        exact ⟨hf, hd, hthin⟩
  | delete a => exact (yields_sweep h a.author).mono (fun _ _ hd => hd) fun _ _ => False.elim
  | transfer sender recipient amount memo => exact ⟨h, rfl⟩
  | other => exact ⟨h, rfl⟩

/-- Content is filed under a topic, for an author. -/
def Files (c : Catalog) (content : Nat) (author : String) (topic : Topic) : Prop :=
  ∃ id e, c.table.get? id = some e ∧ e.content = content ∧ e.author = author ∧ e.topic = topic

variable {content : Nat} {author : String} {topic : Topic}

theorem Thinned.files_iff {keep : Entry → Bool} {path : List Content} (h : Thinned s keep path c d)
    (kept : Nat → String → Bool) (hkeep : ∀ e, keep e = kept e.content e.author) :
    d.Files content author topic ↔ c.Files content author topic ∧ kept content author = true := by
  constructor
  · intro hh
    obtain ⟨id, e, he, rfl, rfl, rfl⟩ := hh
    rw [h.2] at he
    obtain ⟨a, ha, rfl⟩ := Option.map_eq_some_iff.mp he
    obtain ⟨ha, hk⟩ := Option.filter_eq_some_iff.mp ha
    obtain ⟨hcontent, hauthor, htopic⟩ := refreshedBy_place (s := s) path a
    exact ⟨⟨id, a, ha, hcontent.symm, hauthor.symm, htopic.symm⟩, by
      rw [hcontent, hauthor, ← hkeep, hk]⟩
  · intro hh
    obtain ⟨⟨id, e, he, rfl, rfl, rfl⟩, hk⟩ := hh
    refine ⟨id, e.refreshedBy s path, ?_, refreshedBy_place path e⟩
    rw [h.2, he, Option.filter_some_pos (by rw [hkeep, hk])]
    rfl

theorem Refreshed.files_iff {path : List Content} (h : Refreshed s path c d) :
    d.Files content author topic ↔ c.Files content author topic := by
  simpa using h.thinned.files_iff (fun _ _ => true) fun _ => rfl

section

variable {written : Content} {parent : Option Nat} {topics : List Topic}

theorem Reclassified.others (h : Reclassified s written parent topics c d) {id : Nat} {e : Entry}
    (hne : e.content ≠ written.id) : d.table.get? id = some e ↔ c.table.get? id = some e := by
  constructor
  · intro he
    cases hid : c.table.get? id with
    | none => exact absurd (congrArg Entry.content (h.new id e hid he).2) hne
    | some old =>
      have hd := h.old id old hid
      rw [he] at hd
      by_cases hold : old.content = written.id
      · rw [if_neg (by simpa using hold)] at hd
        split at hd
        · obtain rfl := Option.some.inj hd
          exact absurd hold hne
        · cases hd
      · rw [if_pos hold] at hd
        rw [hd]
  · intro he
    rw [h.old id e he, if_pos hne]

theorem Reclassified.files_of_ne (h : Reclassified s written parent topics c d)
    (hne : content ≠ written.id) :
    d.Files content author topic ↔ c.Files content author topic := by
  refine exists_congr fun id => exists_congr fun e => and_congr_left fun hh => ?_
  obtain ⟨hcontent, -⟩ := hh
  exact h.others (hcontent ▸ hne)

theorem Reclassified.files_self (h : Reclassified s written parent topics c d)
    (hf : d.Files written.id author topic) :
    topic ∈ topics ∧ (author = written.author ∨ c.Files written.id author topic) := by
  obtain ⟨id, e, he, hcontent, rfl, rfl⟩ := hf
  cases hid : c.table.get? id with
  | none =>
    obtain ⟨htopic, hnew⟩ := h.new id e hid he
    exact ⟨htopic, .inl (congrArg Entry.author hnew)⟩
  | some a =>
    rw [h.old id a hid] at he
    by_cases ha : a.content = written.id
    · rw [if_neg (by simpa using ha)] at he
      split at he
      · rename_i htopic
        obtain rfl := Option.some.inj he
        exact ⟨htopic, .inr ⟨id, a, hid, ha, rfl, rfl⟩⟩
      · cases he
    · rw [if_pos ha] at he
      obtain rfl := Option.some.inj he
      exact absurd hcontent ha

theorem Reclassified.exists_files_iff (h : Reclassified s written parent topics c d) :
    (∃ author, d.Files written.id author topic) ↔ topic ∈ topics := by
  constructor
  · intro hh
    obtain ⟨author, hf⟩ := hh
    exact (h.files_self hf).1
  · intro ht
    obtain ⟨id, e, he, hfiling⟩ := h.there topic ht
    exact ⟨e.author, id, e, he, congrArg Filing.content hfiling, rfl, congrArg Filing.topic hfiling⟩

end

theorem mem_topicsOfContent (h : c.Sound) :
    topic ∈ c.topicsOfContent content ↔ ∃ author, c.Files content author topic := by
  simp only [topicsOfContent, Std.ExtTreeSet.mem_ofList, List.contains_iff_mem, List.mem_map,
    mem_entriesOfContent h]
  constructor
  · intro hh
    obtain ⟨e, ⟨⟨id, he⟩, hcontent⟩, htopic⟩ := hh
    exact ⟨e.author, id, e, he, hcontent, rfl, htopic⟩
  · intro hh
    obtain ⟨author, id, e, he, hcontent, -, htopic⟩ := hh
    exact ⟨e, ⟨⟨id, he⟩, hcontent⟩, htopic⟩

theorem nodup_topics_of_entries (h : c.Sound) (content : Nat) :
    ((c.entriesOfContent content).map (·.topic)).Nodup := by
  have hids : ((c.entriesOfContent content).map (·.id)).Nodup := by
    rw [map_id_entriesOfContent h]
    exact EntryTable.Coherent.nodup_idsOfContent _ _
  refine List.Nodup.map_on ?_ (List.Nodup.of_map _ hids)
  intro a ha b hb hab
  obtain ⟨⟨i, hi⟩, hac⟩ := (mem_entriesOfContent h).mp ha
  obtain ⟨⟨j, hj⟩, hbc⟩ := (mem_entriesOfContent h).mp hb
  have hij : i = j := by
    refine h.table.id_eq_of_filing hi hj ?_
    rw [Entry.filing, Entry.filing, hac, hbc, hab]
  subst hij
  exact Option.some.inj (hi.symm.trans hj)

end Catalog

end TagCatalog
