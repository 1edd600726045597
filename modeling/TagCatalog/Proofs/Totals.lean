import TagCatalog.Catalog.Totals
import TagCatalog.Proofs.EntryTable

/-! The effect of each change of the totals as one equation: which row is written, and with what.
The rows in between, which only an overflow leaves behind, are gone from it. -/

namespace TagCatalog

namespace TopicTotals

def plus (e : Entry) (row : TopicTotals) : TopicTotals :=
  if e.isRoot then
    { row with
      topPosts := row.topPosts + 1
      childrenRshares2 := row.childrenRshares2 + e.childrenRshares2
      netVotes := row.netVotes + e.netVotes.toInt }
  else
    { row with
      comments := row.comments + 1
      netVotes := row.netVotes + e.netVotes.toInt }

/-- The row without the votes of an entry, whose counts are gone already. -/
def lessVotes (e : Entry) (row : TopicTotals) : TopicTotals :=
  { row with netVotes := row.netVotes - e.netVotes.toInt }

@[simp]
theorem plus_netVotes (e : Entry) (row : TopicTotals) :
    (row.plus e).netVotes = row.netVotes + e.netVotes.toInt := by
  unfold plus
  split <;> rfl

@[simp]
theorem plus_payout (e : Entry) (row : TopicTotals) : (row.plus e).payout = row.payout := by
  unfold plus
  split <;> rfl

/-- What was paid out under a topic is no part of what an entry adds. -/
theorem plus_with_payout (e : Entry) (row : TopicTotals) (payout : Nat) :
    plus e { row with payout } = { row.plus e with payout } := by
  unfold plus
  split <;> rfl

end TopicTotals

namespace Counter

/-- What an entry adds to a counter of its topic. -/
def share (e : Entry) : Counter → Nat
  | .topPosts => if e.isRoot then 1 else 0
  | .comments => if e.isRoot then 0 else 1
  | .childrenRshares2 => if e.isRoot then e.childrenRshares2 else 0

def count (row : TopicTotals) : Counter → Nat
  | .topPosts => row.topPosts
  | .comments => row.comments
  | .childrenRshares2 => row.childrenRshares2

end Counter

/-- The first counter of a row that an entry would take below zero. -/
def TopicTotals.shortOf? (e : Entry) (row : TopicTotals) : Option Counter :=
  [Counter.topPosts, .childrenRshares2, .comments].find? fun k => k.count row < k.share e

namespace Totals

/-- A row loses all of an entry's shares or, if it is short of one, none. -/
theorem lessCounts_eq (e : Entry) (row : TopicTotals) : lessCounts e row =
    match row.shortOf? e with
    | some counter => .error (.negativeCounter counter e.topic)
    | none => .ok { row with
        topPosts := row.topPosts - Counter.topPosts.share e
        comments := row.comments - Counter.comments.share e
        childrenRshares2 := row.childrenRshares2 - Counter.childrenRshares2.share e } := by
  unfold lessCounts TopicTotals.shortOf?
  by_cases hroot : e.isRoot = true
  · simp only [List.find?_cons, hroot, Counter.share, Counter.count, if_true, Nat.lt_one_iff]
    by_cases hposts : row.topPosts = 0
    · simp [hposts]
    · by_cases hweight : row.childrenRshares2 < e.childrenRshares2
      · simp [hposts, hweight]
      · simp [hposts, hweight]
  · by_cases hcomments : row.comments = 0
    · simp [hroot, Counter.share, Counter.count, hcomments]
    · simp [hroot, Counter.share, Counter.count, hcomments]

theorem lessCounts_of_short {e : Entry} {row : TopicTotals} {counter : Counter}
    (h : row.shortOf? e = some counter) :
    lessCounts e row = .error (.negativeCounter counter e.topic) := by
  simp [lessCounts_eq, h]

theorem shortOf?_of_lessCounts {e : Entry} {row : TopicTotals} {f : Fault}
    (h : lessCounts e row = .error f) :
    ∃ counter, row.shortOf? e = some counter ∧ f = .negativeCounter counter e.topic := by
  cases hshort : row.shortOf? e with
  | some counter => exact ⟨counter, rfl, Except.error.inj (h.symm.trans (lessCounts_of_short hshort))⟩
  | none => simp [lessCounts_eq, hshort] at h

theorem plus_of_lessCounts {e : Entry} {row row' : TopicTotals} (h : lessCounts e row = .ok row') :
    (row'.lessVotes e).plus e = row := by
  obtain ⟨topic, topPosts, comments, netVotes, childrenRshares2, payout⟩ := row
  simp only [lessCounts] at h
  split at h
  · rename_i hroot
    split at h
    · simp at h
    · split at h
      · simp at h
      · obtain rfl := Except.ok.inj h
        simp only [TopicTotals.plus, TopicTotals.lessVotes, hroot, if_true, TopicTotals.mk.injEq,
          true_and, and_true]
        omega
  · rename_i hroot
    split at h
    · simp at h
    · obtain rfl := Except.ok.inj h
      simp only [TopicTotals.plus, TopicTotals.lessVotes, hroot, Bool.false_eq_true, if_false,
        TopicTotals.mk.injEq, true_and, and_true]
      omega

theorem lessCounts_plus (e : Entry) (row : TopicTotals) :
    lessCounts e (row.plus e) =
      .ok { row with netVotes := row.netVotes + e.netVotes.toInt } := by
  unfold lessCounts TopicTotals.plus
  split <;> simp

theorem lessVotes_plus (e : Entry) (row : TopicTotals) :
    TopicTotals.lessVotes e { row with netVotes := row.netVotes + e.netVotes.toInt } = row := by
  simp [TopicTotals.lessVotes]

theorem topic?_putTopic (t : Totals) (k a : Topic) (row : TopicTotals) :
    (t.putTopic k row).topic? a = if k = a then some row else t.topic? a := by
  simp [topic?, putTopic, getElem?_insert_eq]

@[simp]
theorem putTopic_putTopic (t : Totals) (k : Topic) (row row' : TopicTotals) :
    (t.putTopic k row).putTopic k row' = t.putTopic k row' := by
  simp only [putTopic, mk.injEq, and_true]
  apply Std.ExtTreeMap.ext_getElem?
  intro a
  simp only [getElem?_insert_eq]
  split <;> rfl

@[simp]
theorem dropTopic_putTopic (t : Totals) (k : Topic) (row : TopicTotals) :
    (t.putTopic k row).dropTopic k = t.dropTopic k := by
  simp only [putTopic, dropTopic, erase_insert]

theorem topic?_dropTopic (t : Totals) (k a : Topic) :
    (t.dropTopic k).topic? a = if k = a then none else t.topic? a := by
  simp [topic?, dropTopic, getElem?_erase_eq]

theorem mem_languages_dropTopic (t : Totals) (topic : Topic) (name : String) :
    name ∈ (t.dropTopic topic).languages ↔ name ∈ t.languages ∧ topic ≠ .language name := by
  obtain ⟨kind, own⟩ := topic
  cases kind with
  | tag => simp [dropTopic, Topic.language]
  | language => simp [dropTopic, Topic.language, and_comm]

variable {t : Totals} {failed : Fault → Totals → Prop}

theorem yields_ensure (topic : Topic) :
    Update.Yields (ensure topic) t
      (fun row u => row = (t.topic? topic).getD { topic } ∧
        (u = t ∨ u = t.putTopic topic { topic }) ∧ u.topic? topic = some row) failed := by
  simp only [ensure, Update.yields_bind, Update.yields_get]
  cases hr : t.topic? topic with
  | none => simp [topic?_putTopic]
  | some row => simp [hr]

theorem yields_add (e : Entry) :
    Update.Yields (add e) t
      (fun _ u => u = t.putTopic e.topic (((t.topic? e.topic).getD { topic := e.topic }).plus e))
      failed := by
  simp only [add, Update.yields_bind]
  refine (yields_ensure e.topic).imp ?_
  intro row u hh
  obtain ⟨rfl, hu, -⟩ := hh
  have hput (row : TopicTotals) : u.putTopic e.topic row = t.putTopic e.topic row := by
    rcases hu with rfl | rfl <;> simp
  by_cases hroot : e.isRoot = true
  · simp [hroot, countPost, hput, TopicTotals.plus]
  · simp [hroot, countComment, hput, TopicTotals.plus]

theorem yields_subtract (e : Entry) (row : TopicTotals) :
    Update.Yields (subtract e row) t
      (fun last u => ∃ row', lessCounts e row = .ok row' ∧ last = row'.lessVotes e ∧
        u = t.putTopic e.topic last)
      (fun f u => lessCounts e row = .error f ∧ u = t) := by
  unfold subtract
  cases lessCounts e row with
  | error f => simp
  | ok row' => simp [TopicTotals.lessVotes]

theorem yields_remove (e : Entry) :
    Update.Yields (remove e) t
      (fun gone u => ∃ row row', t.topic? e.topic = some row ∧ lessCounts e row = .ok row' ∧
        gone = (row'.lessVotes e).isVacant ∧
        u = if gone then t.dropTopic e.topic else t.putTopic e.topic (row'.lessVotes e))
      (fun f u => u = t ∧ (t.topic? e.topic = none ∧ f = .totalsMissing e.topic ∨
        ∃ row, t.topic? e.topic = some row ∧ lessCounts e row = .error f)) := by
  simp only [remove, Update.yields_bind, Update.yields_get, Update.yields_require]
  refine ⟨?_, fun hr => ⟨trivial, .inl ⟨hr, trivial⟩⟩⟩
  intro row hr
  refine (yields_subtract e row).mono ?_ ?_
  · intro last u hh
    obtain ⟨row', hc, rfl, rfl⟩ := hh
    cases hv : (row'.lessVotes e).isVacant with
    | true =>
      simp only [if_true, Update.yields_bind, Update.yields_modify, Update.yields_pure,
        dropTopic_putTopic]
      exact ⟨row, row', hr, hc, hv.symm, trivial⟩
    | false =>
      simp only [Bool.false_eq_true, if_false, Update.yields_pure]
      exact ⟨row, row', hr, hc, hv.symm, rfl⟩
  · intro f u hh
    obtain ⟨hc, rfl⟩ := hh
    exact ⟨rfl, .inr ⟨row, hr, hc⟩⟩

/-- One write takes the old entry off the row and puts the new one into it. -/
theorem yields_replace {old new : Entry} (htopic : new.topic = old.topic) :
    Update.Yields (replace old new) t
      (fun _ u => ∃ row row', t.topic? old.topic = some row ∧ lessCounts old row = .ok row' ∧
        u = t.putTopic old.topic ((row'.lessVotes old).plus new))
      (fun f u => u = t ∧ (t.topic? old.topic = none ∧ f = .totalsMissing old.topic ∨
        ∃ row, t.topic? old.topic = some row ∧ lessCounts old row = .error f)) := by
  simp only [replace, Update.yields_bind, Update.yields_get, Update.yields_require]
  refine ⟨?_, fun hr => ⟨trivial, .inl ⟨hr, trivial⟩⟩⟩
  intro row hr
  refine (yields_subtract old row).mono ?_ ?_
  · intro last u hh
    obtain ⟨row', hc, rfl, rfl⟩ := hh
    refine (yields_add new).imp ?_
    rintro _ _ rfl
    exact ⟨row, row', hr, hc, by simp [htopic, topic?_putTopic]⟩
  · intro f u hh
    obtain ⟨hc, rfl⟩ := hh
    exact ⟨rfl, .inr ⟨row, hr, hc⟩⟩

theorem yields_addPost (author : String) (topic : Topic) :
    Update.Yields (addPost author topic) t
      (fun _ u => u = t.putAuthor ⟨author, topic⟩
        (match t.author? author topic with
        | none => { author, topic, posts := 1 }
        | some row => { row with posts := row.posts + 1 })) failed := by
  simp only [addPost, Update.yields_bind, Update.yields_get]
  cases t.author? author topic with
  | none => simp
  | some row => simp

theorem yields_removePost (author : String) (topic : Topic) :
    Update.Yields (removePost author topic) t
      (fun _ u => ∃ row, t.author? author topic = some row ∧
        u = if row.posts ≤ 1 then { t with authors := t.authors.erase ⟨author, topic⟩ }
          else t.putAuthor ⟨author, topic⟩ { row with posts := row.posts - 1 })
      (fun f u => u = t ∧ t.author? author topic = none ∧ f = .authorTotalsMissing author topic) := by
  simp only [removePost, Update.yields_bind, Update.yields_get, Update.yields_require]
  refine ⟨?_, fun hr => ⟨trivial, hr, trivial⟩⟩
  intro row hr
  split
  · rename_i hp
    simp [hr, hp]
  · rename_i hp
    simp [hr, hp]

end Totals

end TagCatalog
