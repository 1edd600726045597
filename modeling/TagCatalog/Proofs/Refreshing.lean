import TagCatalog.Proofs.InStep

/-! Entries that classifying refreshes in place beside those that it makes on an empty catalog. The two
agree but for the parent and the time of creation, which a refreshed entry keeps from when it was made. -/

namespace TagCatalog

namespace Entry

variable {s : Settings} {parent : Option Nat} {content : Content} {e e₀ : Entry} {id : Nat}

theorem refreshed_eq_made (hcontent : e.content = content.id) (hauthor : e.author = content.author)
    (hmade : e₀ = { ofContent s e.topic parent content with id }) :
    { e.refreshed s content with id := e₀.id, parent := e₀.parent, created := e₀.created } = e₀ := by
  rw [hmade]
  simp [refreshed, ofContent, hcontent, hauthor]

theorem refreshed_eq_made_iff (hcontent : e.content = content.id)
    (hauthor : e.author = content.author)
    (hmade : e₀ = { ofContent s e.topic parent content with id }) :
    { e.refreshed s content with id := e₀.id } = e₀ ↔
      e.parent = e₀.parent ∧ e.created = e₀.created := by
  rw [hmade]
  simp [refreshed, ofContent, hcontent, hauthor]

end Entry

namespace Catalog

variable {s : Settings} {source : ContentSource} {c d : Catalog} {content : Content}
  {parent : Option Nat} {topics : List Topic}

theorem Reclassified.eq_ofContent (h : Reclassified s content parent topics .empty d) {id : Nat}
    {e : Entry} (he : d.table.get? id = some e) :
    e = { Entry.ofContent s e.topic parent content with id } := by
  have hnone : Catalog.empty.table.get? id = none := by
    simp [Catalog.empty, EntryTable.empty, EntryTable.get?]
  exact (h.new id e hnone he).2

theorem Reclassified.topic_mem (h : Reclassified s content parent topics c d) {id : Nat} {e : Entry}
    (he : d.table.get? id = some e) (hcontent : e.content = content.id) : e.topic ∈ topics := by
  have hfiles : d.Files content.id e.author e.topic := ⟨id, e, he, hcontent, rfl, rfl⟩
  exact (h.files_self hfiles).1

/-- An entry of the content is one made anew, or one refreshed that was there under its topic. -/
theorem Reclassified.entry_cases (h : Reclassified s content parent topics c d) {id : Nat} {e : Entry}
    (he : d.table.get? id = some e) (hcontent : e.content = content.id) :
    (c.table.get? id = none ∧ e = { Entry.ofContent s e.topic parent content with id }) ∨
      ∃ old, c.table.get? id = some old ∧ old.content = content.id ∧ e = old.refreshed s content := by
  cases hid : c.table.get? id with
  | none => exact .inl ⟨rfl, (h.new id e hid he).2⟩
  | some old =>
    have hd := h.old id old hid
    rw [he] at hd
    by_cases hold : old.content = content.id
    · rw [if_neg (by simpa using hold)] at hd
      split at hd
      · exact .inr ⟨old, rfl, hold, Option.some.inj hd⟩
      · cases hd
    · rw [if_pos hold] at hd
      obtain rfl := Option.some.inj hd
      exact absurd hcontent hold

/-- Classifying leaves each topic of the content where it was, so that an old entry and a new one under
the same topic are the same entry. -/
theorem Reclassified.id_eq_of_topic (h : Reclassified s content parent topics c d) (hd : d.Sound)
    {i j : Nat} {old e : Entry} (hold : c.table.get? i = some old) (he : d.table.get? j = some e)
    (holdc : old.content = content.id) (hec : e.content = content.id) (htopic : old.topic = e.topic) :
    i = j := by
  have hmem : old.topic ∈ topics := htopic ▸ h.topic_mem he hec
  have hkept : d.table.get? i = some (old.refreshed s content) := by
    rw [h.old i old hold, if_neg (by simpa using holdc), if_pos hmem]
  refine hd.table.id_eq_of_filing hkept he ?_
  simp only [Entry.filing, Entry.refreshed, htopic, holdc, hec]

end Catalog

variable {s s₀ : Settings} {n : Node} {F : Filed}

/-- Whatever history led here, an entry after classifying is the one that the same call makes on an empty
catalog, but for its id, its parent and its time of creation. Those two agree just as well unless the
entry was there before and was made of another parent or time. -/
theorem History.refreshed_eq_fresh_iff (h : History s₀ n F) {a : Address} {r r₀ : Report}
    {d d₀ : Catalog} (hrun : Catalog.classify s n.ledger.source a n.catalog = .ok r d)
    (hfresh : Catalog.classify s n.ledger.source a .empty = .ok r₀ d₀) :
    ∃ content, n.ledger.at? a = some content ∧
      ∀ e ∈ d.entriesOfContent content.id, ∃ e₀ ∈ d₀.entriesOfContent content.id,
        e₀.topic = e.topic ∧
        { e with id := e₀.id, parent := e₀.parent, created := e₀.created } = e₀ ∧
        ({ e with id := e₀.id } = e₀ ↔
          ∀ old ∈ n.catalog.entriesOfContent content.id, old.topic = e.topic →
            old.parent = e₀.parent ∧ old.created = e₀.created) := by
  have hh := h.holds
  obtain ⟨hd, content, hcontent, -, heffect⟩ := (Catalog.yields_classify hh.catalog a).of_ok hrun
  obtain ⟨hd₀, content₀, hcontent₀, -, heffect₀⟩ :=
    (Catalog.yields_classify Catalog.Sound.empty a).of_ok hfresh
  obtain rfl := Option.some.inj (hcontent.symm.trans hcontent₀)
  refine ⟨content, hcontent, fun e he => ?_⟩
  obtain ⟨⟨id, hid⟩, hec⟩ := (Catalog.mem_entriesOfContent hd).mp he
  have hstored : n.ledger.byId? content.id = some content := (hh.ledger.at?_eq_some.mp hcontent).1
  obtain ⟨i₀, e₀, he₀, hfiling⟩ := heffect₀.there e.topic (heffect.topic_mem hid hec)
  have htopic : e₀.topic = e.topic := congrArg Filing.topic hfiling
  have hec₀ : e₀.content = content.id := congrArg Filing.content hfiling
  have hmade := heffect₀.eq_ofContent he₀
  rw [htopic] at hmade
  refine ⟨e₀, (Catalog.mem_entriesOfContent hd₀).mpr ⟨⟨i₀, he₀⟩, hec₀⟩, htopic, ?_⟩
  rcases heffect.entry_cases hid hec with ⟨hnone, hnew⟩ | ⟨old, hold, holdc, rfl⟩
  · have hsame : { e with id := e₀.id } = e₀ := by rw [hnew, hmade]
    refine ⟨by rw [← hsame], iff_of_true hsame ?_⟩
    intro old hmem hot
    obtain ⟨⟨i, hi⟩, hoc⟩ := (Catalog.mem_entriesOfContent hh.catalog).mp hmem
    obtain rfl := heffect.id_eq_of_topic hd hi hid hoc hec hot
    cases hnone.symm.trans hi
  · have hauthor : old.author = content.author := hh.owner_eq hold (holdc ▸ hstored)
    refine ⟨Entry.refreshed_eq_made holdc hauthor hmade, ?_⟩
    rw [Entry.refreshed_eq_made_iff holdc hauthor hmade]
    constructor
    · intro hsame old' hmem hot
      obtain ⟨⟨i, hi⟩, hoc⟩ := (Catalog.mem_entriesOfContent hh.catalog).mp hmem
      obtain rfl := heffect.id_eq_of_topic hd hi hid hoc hec hot
      obtain rfl := Option.some.inj (hold.symm.trans hi)
      exact hsame
    · intro hall
      have hmem : old ∈ n.catalog.entriesOfContent content.id :=
        (Catalog.mem_entriesOfContent hh.catalog).mpr ⟨⟨id, hold⟩, holdc⟩
      exact hall old hmem rfl

/-- What was a reply, as a root post of a later day with a tag more. -/
def replyMoved : Content :=
  { (Content.post ⟨"bob", "answer"⟩ ⟨86400, 0⟩).inCategory "news" with
    cashoutTime := some .last
    jsonMetadata := "\x7b\"tags\":[\"art\"]\x7d" }

def replyRewritten : Node := replyFiled.next {} (.upsert replyMoved)

def replyReclassified (c : Catalog) : Catalog :=
  (Update.after? (Catalog.classify {} replyRewritten.ledger.source ⟨"bob", "answer"⟩) c).getD .empty

theorem exists_history_replyRewritten : ∃ F, History {} replyRewritten F :=
  History.exists_next exists_history_replyFiled (by decide +kernel)

theorem exists_replyReclassified {c : Catalog} (h : Update.returns
    (Catalog.classify {} replyRewritten.ledger.source ⟨"bob", "answer"⟩) c = true) :
    ∃ r, Catalog.classify {} replyRewritten.ledger.source ⟨"bob", "answer"⟩ c =
      .ok r (replyReclassified c) :=
  Update.exists_ok_of_returns h .empty

theorem replyRewritten_stored :
    (replyRewritten.ledger.at? ⟨"bob", "answer"⟩).map (·.id) = some 2 := by decide +kernel

/-- The old entry of the rewritten reply stays a reply of the first day beside the new one. -/
theorem replyReclassified_entries :
    ((replyReclassified replyRewritten.catalog).entriesOfContent 2).map
        (fun e => (e.topic.name, e.parent, e.created.seconds)) =
      [("news", some 1, 0), ("art", none, 86400)] ∧
    ((replyReclassified .empty).entriesOfContent 2).map
        (fun e => (e.topic.name, e.parent, e.created.seconds)) =
      [("art", none, 86400), ("news", none, 86400)] := by decide +kernel

/-- Refreshing in place is not making afresh: the parent and the time of creation may differ. -/
theorem History.not_refreshed_eq_fresh :
    ¬ ∀ s n F a r r₀ d d₀ content, History s n F →
      Catalog.classify s n.ledger.source a n.catalog = .ok r d →
      Catalog.classify s n.ledger.source a .empty = .ok r₀ d₀ →
      n.ledger.at? a = some content →
      ∀ e ∈ d.entriesOfContent content.id, ∃ e₀ ∈ d₀.entriesOfContent content.id,
        e₀.topic = e.topic ∧ { e with id := e₀.id } = e₀ := by
  intro h
  obtain ⟨F, hF⟩ := exists_history_replyRewritten
  obtain ⟨r, hrun⟩ := exists_replyReclassified (c := replyRewritten.catalog) (by decide +kernel)
  obtain ⟨r₀, hfresh⟩ := exists_replyReclassified (c := .empty) (by decide +kernel)
  obtain ⟨content, hcontent, hid⟩ := Option.map_eq_some_iff.mp replyRewritten_stored
  have hall := h {} replyRewritten F _ r r₀ _ _ content hF hrun hfresh hcontent
  rw [hid] at hall
  obtain ⟨hentries, hentries₀⟩ := replyReclassified_entries
  have hold : ("news", some 1, 0) ∈ ((replyReclassified replyRewritten.catalog).entriesOfContent 2).map
      (fun e => (e.topic.name, e.parent, e.created.seconds)) := by simp [hentries]
  obtain ⟨e, he, heq⟩ := List.mem_map.mp hold
  obtain ⟨e₀, he₀, -, hsame⟩ := hall e he
  have hparent : e₀.parent = some 1 := by
    rw [← hsame]
    exact congrArg (·.2.1) heq
  have hmem := List.mem_map_of_mem (f := fun e : Entry => (e.topic.name, e.parent, e.created.seconds)) he₀
  rw [hentries₀, hparent] at hmem
  simp at hmem

theorem History.refreshed_eq_fresh_iff_replyRewritten :
    ∃ F r r₀, History {} replyRewritten F ∧
      Catalog.classify {} replyRewritten.ledger.source ⟨"bob", "answer"⟩ replyRewritten.catalog =
        .ok r (replyReclassified replyRewritten.catalog) ∧
      Catalog.classify {} replyRewritten.ledger.source ⟨"bob", "answer"⟩ .empty =
        .ok r₀ (replyReclassified .empty) ∧
      ∀ e ∈ (replyReclassified replyRewritten.catalog).entriesOfContent 2,
        ∃ e₀ ∈ (replyReclassified .empty).entriesOfContent 2, e₀.topic = e.topic ∧
          { e with id := e₀.id, parent := e₀.parent, created := e₀.created } = e₀ ∧
          ({ e with id := e₀.id } = e₀ ↔
            ∀ old ∈ replyRewritten.catalog.entriesOfContent 2, old.topic = e.topic →
              old.parent = e₀.parent ∧ old.created = e₀.created) := by
  obtain ⟨F, hF⟩ := exists_history_replyRewritten
  obtain ⟨r, hrun⟩ := exists_replyReclassified (c := replyRewritten.catalog) (by decide +kernel)
  obtain ⟨r₀, hfresh⟩ := exists_replyReclassified (c := .empty) (by decide +kernel)
  obtain ⟨content, hcontent, hlaw⟩ := History.refreshed_eq_fresh_iff hF hrun hfresh
  have hid : content.id = 2 := by
    have hstored := replyRewritten_stored
    rw [hcontent] at hstored
    exact Option.some.inj hstored
  exact ⟨F, r, r₀, hF, hrun, hfresh, hid ▸ hlaw⟩

end TagCatalog
