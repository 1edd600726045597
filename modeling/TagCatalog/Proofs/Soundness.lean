import TagCatalog.Catalog.Upkeep
import TagCatalog.Proofs.Recount

/-! A sound catalog has a coherent table, no language without a name, and the totals of its entries.
Filing, refreshing and withdrawing one entry keep it sound and report no fault. -/

namespace TagCatalog

namespace Catalog

structure Sound (c : Catalog) : Prop where
  table : c.table.Coherent
  named : ∀ id e, c.table.get? id = some e → e.topic ≠ .language ""
  totals : c.totals.Balanced c.table.toList

theorem Sound.empty : Sound .empty :=
  ⟨EntryTable.Coherent.empty, by simp [Catalog.empty, EntryTable.empty, EntryTable.get?],
    Totals.Balanced.empty⟩

variable {α : Type} {c : Catalog} {ok : α → Catalog → Prop} {failed : Fault → Catalog → Prop}

@[simp]
theorem yields_onTable (m : Update EntryTable α) :
    Update.Yields (onTable m) c ok failed ↔
      Update.Yields m c.table (fun a table => ok a { c with table })
        (fun f table => failed f { c with table }) :=
  Update.yields_within _ _ m

@[simp]
theorem yields_onTotals (m : Update Totals α) :
    Update.Yields (onTotals m) c ok failed ↔
      Update.Yields m c.totals (fun a totals => ok a { c with totals })
        (fun f totals => failed f { c with totals }) :=
  Update.yields_within _ _ m

@[simp]
theorem yields_requireEntry (id : Nat) {ok : Entry → Catalog → Prop} :
    Update.Yields (requireEntry id) c ok failed ↔
      (∀ e, c.table.get? id = some e → ok e c) ∧
        (c.table.get? id = none → failed (.entryMissing id) c) := by
  simp [requireEntry]

theorem yields_file (h : c.Sound) {e : Entry} (hname : e.topic ≠ .language "")
    (hf : ∀ id a, c.table.get? id = some a → a.filing ≠ e.filing) :
    Update.Yields (file e) c
      (fun _ d => d.Sound ∧ d.table.nextId = c.table.nextId + 1 ∧
        d.table.entries = c.table.entries.insert c.table.nextId { e with id := c.table.nextId })
      fun _ _ => False := by
  simp only [file, Update.yields_bind, yields_onTable, yields_requireEntry]
  refine (EntryTable.yields_insert h.table hf).imp ?_
  intro _ table hh
  obtain ⟨rfl, hcoh, hnext, hentries⟩ := hh
  have hget : table.get? c.table.nextId = some { e with id := c.table.nextId } := by
    simp [EntryTable.get?, hentries]
  refine ⟨?_, by simp [hget]⟩
  intro a ha
  have hae : { e with id := c.table.nextId } = a := Option.some.inj (hget.symm.trans ha)
  rw [hae] at hentries ⊢
  have hperm := values_insert_perm h.table.get?_nextId a
  rw [← hentries] at hperm
  simp only [yields_onTotals]
  refine (Totals.yields_add_topicRows h.totals.topics _).imp ?_
  intro _ totals hh
  obtain ⟨htopics, hauthors, hlanguages⟩ := hh
  refine (Totals.yields_addPost_rows (hauthors ▸ h.totals.authors) _).imp ?_
  intro _ totals' hh
  obtain ⟨htopics', hauthors', hlanguages'⟩ := hh
  have hnamed : ∀ id b, table.get? id = some b → b.topic ≠ .language "" := by
    intro id b hb
    simp only [EntryTable.get?, hentries, getElem?_insert_eq] at hb
    split at hb
    · rw [← Option.some.inj hb, ← hae]
      exact hname
    · exact h.named id b hb
  have hl : Totals.LanguageNames totals'.languages c.table.toList := by
    rw [hlanguages', hlanguages]
    exact h.totals.languages
  split
  · rename_i hk
    exact ⟨⟨hcoh, hnamed, .perm ⟨htopics' ▸ htopics, hauthors', hl.register hk⟩ hperm.symm⟩,
      hnext, hentries⟩
  · rename_i hk
    exact ⟨⟨hcoh, hnamed, .perm ⟨htopics' ▸ htopics, hauthors', hl.cons_tag hk⟩ hperm.symm⟩,
      hnext, hentries⟩

theorem yields_withdrawEntry (h : c.Sound) {id : Nat} {e : Entry} (he : c.table.get? id = some e) :
    Update.Yields (withdrawEntry id) c
      (fun _ d => d.Sound ∧ d.table.nextId = c.table.nextId ∧
        d.table.entries = c.table.entries.erase id)
      fun _ _ => False := by
  have hperm := values_perm_erase (m := c.table.entries) he
  have hbal := h.totals.perm hperm
  have hauthor : c.totals.author? e.author e.topic ≠ none := by
    obtain ⟨row, hrow⟩ := hbal.authors.exists_row List.mem_cons_self
    exact Option.ne_none_iff_exists'.mpr ⟨row, hrow⟩
  simp only [withdrawEntry, Update.yields_bind, yields_requireEntry, he, Option.some.injEq,
    forall_eq', Update.yields_get, Update.yields_require, reduceCtorEq, false_implies, and_true]
  refine ⟨fun _ _ => ?_, hauthor⟩
  simp only [yields_onTotals]
  refine (Totals.yields_remove_rows hbal.topics hbal.languages).imp ?_
  intro _ totals hh
  obtain ⟨htopics, hlanguages, hauthors⟩ := hh
  refine (Totals.yields_removePost_rows (hauthors ▸ hbal.authors)).imp ?_
  intro _ totals' hh
  obtain ⟨htopics', hauthors', hlanguages'⟩ := hh
  simp only [yields_onTable]
  refine (EntryTable.yields_remove h.table he).imp ?_
  intro a table hh
  obtain ⟨-, hcoh, hnext, hentries⟩ := hh
  refine ⟨⟨hcoh, ?_, ?_⟩, hnext, hentries⟩
  · intro i b hb
    simp only [EntryTable.get?, hentries, getElem?_erase_eq] at hb
    split at hb
    · simp at hb
    · exact h.named i b hb
  have hlist : table.toList = (c.table.entries.erase id).values := by
    rw [← hentries]
    rfl
  rw [hlist]
  exact ⟨htopics' ▸ htopics, hauthors', hlanguages' ▸ hlanguages⟩

theorem withdrawEntry_of_none {id : Nat} (he : c.table.get? id = none) :
    withdrawEntry id c = .error (.fault (.entryMissing id)) c := by
  have hr : requireEntry id c = .error (.fault (.entryMissing id)) c := by
    simp only [requireEntry, bind, EStateM.bind, get, getThe, MonadStateOf.get, EStateM.get, he]
    rfl
  simp only [withdrawEntry, bind, EStateM.bind, hr]

theorem yields_refreshEntry (h : c.Sound) (s : Settings) (content : Content) {id : Nat} {e : Entry}
    (he : c.table.get? id = some e) :
    Update.Yields (refreshEntry s content id) c
      (fun _ d => d.Sound ∧ d.table.nextId = c.table.nextId ∧
        d.table.entries = c.table.entries.insert id (e.refreshed s content))
      fun _ _ => False := by
  have hid : (e.refreshed s content).id = id := h.table.id_eq id e he
  have htopic : (e.refreshed s content).topic = e.topic := rfl
  have hbal := h.totals.perm (values_perm_erase (m := c.table.entries) he)
  simp only [refreshEntry, Update.yields_bind, yields_requireEntry, he, Option.some.injEq,
    forall_eq', reduceCtorEq, false_implies, and_true, yields_onTotals, yields_onTable]
  refine (Totals.yields_replace_topicRows hbal.topics htopic).imp ?_
  intro _ totals hh
  obtain ⟨htopics, hauthors, hlanguages⟩ := hh
  have hget : c.table.get? (e.refreshed s content).id = some e := by rw [hid, he]
  have hsame : EntryTable.sameIdentity e (e.refreshed s content) = true := by
    simp [EntryTable.sameIdentity, Entry.refreshed]
  refine (EntryTable.yields_replace h.table hget hsame).imp ?_
  intro _ table hh
  obtain ⟨hcoh, hnext, hentries⟩ := hh
  rw [hid] at hentries
  refine ⟨⟨hcoh, ?_, ?_⟩, hnext, hentries⟩
  · intro i b hb
    simp only [EntryTable.get?, hentries, getElem?_insert_eq] at hb
    split at hb
    · rw [← Option.some.inj hb]
      exact h.named id e he
    · exact h.named i b hb
  have hperm := values_perm_erase (m := table.entries) (k := id) (v := e.refreshed s content)
    (by simp [hentries])
  rw [hentries, erase_insert, ← hentries] at hperm
  refine Totals.Balanced.perm ⟨htopics, ?_, ?_⟩ hperm.symm
  · rw [hauthors]
    exact hbal.authors.replace_head rfl
  · rw [hlanguages]
    exact hbal.languages.replace_head htopic

end Catalog

end TagCatalog
