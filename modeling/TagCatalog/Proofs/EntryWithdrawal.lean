import TagCatalog.Proofs.Reachability
import TagCatalog.Proofs.VoteSums

/-! Withdrawing an entry whatever the totals hold. What stands against it is found before the first
write, so that the catalog either stays as it is or loses the entry with its shares and nothing
else. -/

namespace TagCatalog

namespace Totals

/-- Topic and author have lost the share of an entry. A row that is left vacant is gone, and with it
the name of a language; all other rows and names are as they were. -/
structure Loses (e : Entry) (t u : Totals) : Prop where
  topic : ∃ row, t.topic? e.topic = some (row.plus e) ∧
    u.topic? e.topic = if row.isVacant then none else some row
  author : ∃ row, t.author? e.author e.topic = some row ∧
    u.author? e.author e.topic =
      if row.posts ≤ 1 then none else some { row with posts := row.posts - 1 }
  languages : ∀ name, name ∈ u.languages ↔
    name ∈ t.languages ∧ ¬ (e.topic = .language name ∧ u.topic? e.topic = none)
  otherTopics : ∀ topic, topic ≠ e.topic → u.topic? topic = t.topic? topic
  otherAuthors : ∀ author topic, ⟨author, topic⟩ ≠ e.authorship →
    u.author? author topic = t.author? author topic

variable {t : Totals}

theorem yields_remove_own (e : Entry) :
    Update.Yields (remove e) t
      (fun _ u => (∃ row, t.topic? e.topic = some (row.plus e) ∧
          u.topic? e.topic = if row.isVacant then none else some row) ∧
        (∀ name, name ∈ u.languages ↔
          name ∈ t.languages ∧ ¬ (e.topic = .language name ∧ u.topic? e.topic = none)) ∧
        (∀ topic, topic ≠ e.topic → u.topic? topic = t.topic? topic) ∧ u.authors = t.authors)
      (fun f u => u = t ∧ (t.topic? e.topic = none ∧ f = .totalsMissing e.topic ∨
        ∃ row, t.topic? e.topic = some row ∧ lessCounts e row = .error f)) := by
  refine (yields_remove e).imp ?_
  intro gone u hh
  obtain ⟨row, row', hrow, hless, hgone, hu⟩ := hh
  rw [← plus_of_lessCounts hless] at hrow
  cases gone with
  | true =>
    subst hu
    refine ⟨⟨_, hrow, ?_⟩, ?_, ?_, rfl⟩
    · simp [topic?_dropTopic, ← hgone]
    · intro name
      simp [mem_languages_dropTopic, topic?_dropTopic]
    · intro topic hne
      simp [topic?_dropTopic, hne.symm]
  | false =>
    subst hu
    refine ⟨⟨_, hrow, ?_⟩, ?_, ?_, rfl⟩
    · simp [topic?_putTopic, ← hgone]
    · intro name
      have hnames : (t.putTopic e.topic (row'.lessVotes e)).languages = t.languages := rfl
      simp [hnames, topic?_putTopic]
    · intro topic hne
      simp [topic?_putTopic, hne.symm]

theorem remove_of_none {e : Entry} (h : t.topic? e.topic = none) :
    remove e t = .error (.fault (.totalsMissing e.topic)) t := by
  simp only [remove, bind, EStateM.bind, get, getThe, MonadStateOf.get, EStateM.get, h]
  rfl

theorem remove_of_short {e : Entry} {row : TopicTotals} {counter : Counter}
    (h : t.topic? e.topic = some row) (hshort : row.shortOf? e = some counter) :
    remove e t = .error (.fault (.negativeCounter counter e.topic)) t := by
  simp only [remove, subtract, bind, EStateM.bind, get, getThe, MonadStateOf.get, EStateM.get, h,
    Update.require, pure, EStateM.pure, lessCounts_of_short hshort]
  rfl

theorem yields_removePost_own {author : String} {topic : Topic} {row : AuthorTotals}
    (hrow : t.author? author topic = some row) :
    Update.Yields (removePost author topic) t
      (fun _ u => (u.author? author topic =
          if row.posts ≤ 1 then none else some { row with posts := row.posts - 1 }) ∧
        (∀ author' topic', Authorship.mk author' topic' ≠ ⟨author, topic⟩ →
          u.author? author' topic' = t.author? author' topic') ∧
        u.topics = t.topics ∧ u.languages = t.languages)
      fun _ _ => False := by
  refine (yields_removePost author topic).mono ?_ ?_
  · intro _ u hh
    obtain ⟨r, hr, rfl⟩ := hh
    obtain rfl := Option.some.inj (hrow.symm.trans hr)
    split
    · refine ⟨by simp [author?], fun author' topic' hne => ?_, rfl, rfl⟩
      simp [author?, getElem?_erase_eq, hne.symm]
    · refine ⟨by simp [author?, putAuthor], fun author' topic' hne => ?_, rfl, rfl⟩
      simp [author?, putAuthor, getElem?_insert_eq, hne.symm]
  · intro f u hh
    simp [hrow] at hh

theorem yields_remove_loses {e : Entry} {row : AuthorTotals}
    (hauthor : t.author? e.author e.topic = some row) :
    Update.Yields (remove e) t
      (fun _ u => Update.Yields (removePost e.author e.topic) u (fun _ v => t.Loses e v)
        fun _ _ => False)
      (fun f u => u = t ∧ (t.topic? e.topic = none ∧ f = .totalsMissing e.topic ∨
        ∃ row, t.topic? e.topic = some row ∧ lessCounts e row = .error f)) := by
  refine (yields_remove_own e).imp ?_
  intro _ u hh
  obtain ⟨htopic, hlanguages, hothers, hauthors⟩ := hh
  have hauthor? (author : String) (topic : Topic) :
      u.author? author topic = t.author? author topic := by
    rw [author?, hauthors, ← author?]
  refine (yields_removePost_own ((hauthor? _ _).trans hauthor)).imp ?_
  intro _ v hh
  obtain ⟨hown, hposts, htopics, hnames⟩ := hh
  have htopic? (topic : Topic) : v.topic? topic = u.topic? topic := by
    rw [topic?, htopics, ← topic?]
  refine ⟨?_, ⟨row, hauthor, hown⟩, fun name => ?_, fun topic hne => ?_, fun author topic hne => ?_⟩
  · simpa only [htopic?] using htopic
  · simpa only [htopic?, hnames] using hlanguages name
  · rw [htopic?, hothers topic hne]
  · rw [hposts author topic hne, hauthor?]

end Totals

namespace Catalog

/-- The first thing that stands against withdrawing an entry. -/
inductive Withheld (c : Catalog) (id : Nat) : Fault → Prop
  | entry (hentry : c.table.get? id = none) : Withheld c id (.entryMissing id)
  | author {e : Entry} (hentry : c.table.get? id = some e)
      (hauthor : c.totals.author? e.author e.topic = none) :
      Withheld c id (.authorTotalsMissing e.author e.topic)
  | topic {e : Entry} (hentry : c.table.get? id = some e)
      (hauthor : c.totals.author? e.author e.topic ≠ none)
      (htopic : c.totals.topic? e.topic = none) : Withheld c id (.totalsMissing e.topic)
  | counter {e : Entry} {row : TopicTotals} {counter : Counter}
      (hentry : c.table.get? id = some e)
      (hauthor : c.totals.author? e.author e.topic ≠ none)
      (htopic : c.totals.topic? e.topic = some row) (hshort : row.shortOf? e = some counter) :
      Withheld c id (.negativeCounter counter e.topic)

structure Withdrawn (c : Catalog) (e : Entry) (d : Catalog) : Prop where
  coherent : d.table.Coherent
  nextId : d.table.nextId = c.table.nextId
  entries : ∀ id, d.table.get? id = if e.id = id then none else c.table.get? id
  totals : c.totals.Loses e d.totals

variable {c : Catalog} {id : Nat}

theorem withdrawEntry_of_remove_fault {e : Entry} {f : Fault} (hentry : c.table.get? id = some e)
    (hauthor : c.totals.author? e.author e.topic ≠ none)
    (hremove : Totals.remove e c.totals = .error (.fault f) c.totals) :
    withdrawEntry id c = .error (.fault f) c := by
  obtain ⟨row, hrow⟩ := Option.ne_none_iff_exists'.mp hauthor
  simp only [withdrawEntry, requireEntry, bind, EStateM.bind, get, getThe, MonadStateOf.get,
    EStateM.get, hentry, hrow, Update.require, pure, EStateM.pure, onTotals, Update.within, hremove]

theorem Withheld.withdrawEntry_eq {f : Fault} (h : c.Withheld id f) :
    withdrawEntry id c = .error (.fault f) c := by
  cases h with
  | entry hentry => exact withdrawEntry_of_none hentry
  | author hentry hauthor =>
    simp only [withdrawEntry, requireEntry, bind, EStateM.bind, get, getThe, MonadStateOf.get,
      EStateM.get, hentry, hauthor, Update.require, pure, EStateM.pure]
    rfl
  | topic hentry hauthor htopic =>
    exact withdrawEntry_of_remove_fault hentry hauthor (Totals.remove_of_none htopic)
  | counter hentry hauthor htopic hshort =>
    exact withdrawEntry_of_remove_fault hentry hauthor (Totals.remove_of_short htopic hshort)

theorem yields_withdrawEntry_of_coherent (h : c.table.Coherent) (id : Nat) :
    Update.Yields (withdrawEntry id) c
      (fun _ d => ∃ e, c.table.get? id = some e ∧ c.Withdrawn e d)
      fun f d => d = c ∧ c.Withheld id f := by
  simp only [withdrawEntry, Update.yields_bind, yields_requireEntry, Update.yields_get,
    Update.yields_require, yields_onTotals, yields_onTable]
  refine ⟨fun e he => ⟨fun authorRow hauthor => ?_, fun hauthor => ⟨trivial, .author he hauthor⟩⟩,
    fun he => ⟨trivial, .entry he⟩⟩
  refine (Totals.yields_remove_loses hauthor).mono ?_ ?_
  · intro _ t hremoved
    refine hremoved.mono ?_ fun _ _ hf => hf.elim
    intro _ u hloses
    refine (EntryTable.yields_remove h he).mono ?_ fun _ _ hf => hf.elim
    intro a table hh
    obtain ⟨-, hcoherent, hnext, hentries⟩ := hh
    refine ⟨e, he, hcoherent, hnext, fun i => ?_, hloses⟩
    rw [h.id_eq id e he]
    simp only [EntryTable.get?, hentries, getElem?_erase_eq]
  · intro f t hh
    obtain ⟨rfl, ⟨htopic, rfl⟩ | ⟨row, htopic, hless⟩⟩ := hh
    · exact ⟨rfl, .topic he (by simp [hauthor]) htopic⟩
    · obtain ⟨counter, hshort, rfl⟩ := Totals.shortOf?_of_lessCounts hless
      exact ⟨rfl, .counter he (by simp [hauthor]) htopic hshort⟩

/-- An entry is withdrawn as a whole or not at all, and which of the two is seen beforehand. -/
theorem withdrawEntry_whole (h : c.table.Coherent) (id : Nat) :
    (∀ f d, withdrawEntry id c = .error (.fault f) d ↔ d = c ∧ c.Withheld id f) ∧
      (∀ d, withdrawEntry id c = .ok ⟨⟩ d → ∃ e, c.table.get? id = some e ∧ c.Withdrawn e d) ∧
      ((∀ e, c.table.get? id = some e → c.totals.VotesFit e) →
        ((∃ d, withdrawEntry id c = .ok ⟨⟩ d) ↔ ∀ f, ¬ c.Withheld id f)) := by
  have hyields := yields_withdrawEntry_of_coherent h id
  refine ⟨fun f d => ⟨hyields.of_fault, ?_⟩, fun d => hyields.of_ok, fun hvotes => ⟨?_, ?_⟩⟩
  · intro hh
    obtain ⟨rfl, hf⟩ := hh
    exact hf.withdrawEntry_eq
  · intro hh f hf
    obtain ⟨d, hd⟩ := hh
    simp [hf.withdrawEntry_eq] at hd
  · intro hfree
    have hyields := hyields.mono (fun _ _ hd => hd) fun f _ hf => hfree f hf.2
    obtain ⟨_, d, hd, -⟩ := hyields.exists_ok (noOverflow_withdrawEntry hvotes)
    exact ⟨d, hd⟩

/-- The one post is counted among the replies of its topic. -/
def miscountedCatalog : Catalog :=
  { loneCatalog with
    totals := loneCatalog.totals.putTopic (.tag "") { topic := .tag "", comments := 1 } }

theorem withdrawEntry_whole_miscounted :
    miscountedCatalog.table.Coherent ∧
      withdrawEntry 0 miscountedCatalog =
        .error (.fault (.negativeCounter .topPosts (.tag ""))) miscountedCatalog ∧
      miscountedCatalog.Withheld 0 (.negativeCounter .topPosts (.tag "")) ∧
      ∃ d, withdrawEntry 0 loneCatalog = .ok ⟨⟩ d ∧ d.table.get? 0 = none := by
  have hlone : loneCatalog.table.Coherent := reachable_loneCatalog.sound.table
  have hmiscounted : miscountedCatalog.table.Coherent := hlone
  have hfault : withdrawEntry 0 miscountedCatalog =
      .error (.fault (.negativeCounter .topPosts (.tag ""))) miscountedCatalog := rfl
  obtain ⟨hfaults, -, -⟩ := withdrawEntry_whole hmiscounted 0
  obtain ⟨-, hreturns, -⟩ := withdrawEntry_whole hlone 0
  obtain ⟨_, hd⟩ := Update.exists_ok_of_returns
    (show Update.returns (withdrawEntry 0) loneCatalog = true by decide +kernel) loneCatalog
  obtain ⟨e, he, hwithdrawn⟩ := hreturns _ hd
  refine ⟨hmiscounted, hfault, ((hfaults _ _).mp hfault).2, _, hd, ?_⟩
  rw [hwithdrawn.entries, if_pos (hlone.id_eq 0 e he)]

end Catalog

end TagCatalog
