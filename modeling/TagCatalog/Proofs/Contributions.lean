import TagCatalog.Proofs.Replacement

/-! Contributions as bookkeeping that can be undone. What entries add up to does not depend on their order,
and taking them off again, in whatever order, leads through what the others add up to back to the start. -/

namespace TagCatalog

namespace TopicTotals

variable (a b e : Entry) (row : TopicTotals)

theorem plus_eq : row.plus e = { row with
    topPosts := row.topPosts + Counter.topPosts.share e
    comments := row.comments + Counter.comments.share e
    childrenRshares2 := row.childrenRshares2 + Counter.childrenRshares2.share e
    netVotes := row.netVotes + e.netVotes.toInt } := by
  unfold plus
  split
  · rename_i hroot
    simp [Counter.share, hroot]
  · rename_i hroot
    simp [Counter.share, hroot]

theorem plus_right_comm : (row.plus a).plus b = (row.plus b).plus a := by
  simp only [plus_eq, mk.injEq, true_and, and_true]
  omega

theorem isVacant_plus : (row.plus e).isVacant = false := by
  unfold plus
  split
  · simp [isVacant]
  · simp [isVacant]

end TopicTotals

namespace Totals

def plus (t : Totals) (e : Entry) : Totals :=
  t.putTopic e.topic (((t.topic? e.topic).getD { topic := e.topic }).plus e)

/-- No row is vacant, and each language in use has a row. -/
structure Tended (t : Totals) : Prop where
  occupied : ∀ topic row, t.topic? topic = some row → row.isVacant = false
  spoken : ∀ name ∈ t.languages, (t.topic? (.language name)).isSome

open Update

variable {t u : Totals} {es ps : List Entry}

theorem topic?_plus (t : Totals) (e : Entry) (k : Topic) : (t.plus e).topic? k =
    if e.topic = k then some (((t.topic? k).getD { topic := k }).plus e) else t.topic? k := by
  rw [plus, topic?_putTopic]
  split
  · rename_i hk
    rw [hk]
  · rfl

theorem ext_topic? (htopic : ∀ k, t.topic? k = u.topic? k) (hauthors : t.authors = u.authors)
    (hlanguages : t.languages = u.languages) : t = u := by
  have htopics : t.topics = u.topics := Std.ExtTreeMap.ext_getElem? fun {k} => htopic k
  cases t
  cases u
  simp_all

theorem plus_right_comm (t : Totals) (a b : Entry) : (t.plus a).plus b = (t.plus b).plus a := by
  refine ext_topic? (fun k => ?_) rfl rfl
  simp only [topic?_plus]
  by_cases ha : a.topic = k
  · by_cases hb : b.topic = k
    · simp [ha, hb, TopicTotals.plus_right_comm a b]
    · simp [ha, hb]
  · simp [ha]

def plusAll (t : Totals) (es : List Entry) : Totals := es.foldl plus t

theorem plusAll_perm (t : Totals) (h : es.Perm ps) : t.plusAll es = t.plusAll ps :=
  h.foldl_eq' (fun a _ b _ u => plus_right_comm u a b) t

/-- The first entry might as well have been the last. -/
theorem plusAll_cons (t : Totals) (e : Entry) (es : List Entry) :
    t.plusAll (e :: es) = (t.plusAll es).plus e := by
  rw [plusAll_perm t (List.perm_append_singleton e es).symm, plusAll, plusAll, List.foldl_append]
  rfl

theorem isSome_topic?_plus (t : Totals) (e : Entry) (k : Topic) :
    ((t.plus e).topic? k).isSome ↔ e.topic = k ∨ (t.topic? k).isSome := by
  rw [topic?_plus]
  split
  · simp [*]
  · simp [*]

theorem isSome_topic?_plusAll (t : Totals) (es : List Entry) (k : Topic) :
    ((t.plusAll es).topic? k).isSome ↔ (t.topic? k).isSome ∨ ∃ e ∈ es, e.topic = k := by
  induction es with
  | nil => simp [plusAll]
  | cons e es ih =>
    rw [plusAll_cons, isSome_topic?_plus, ih]
    simp only [List.mem_cons, exists_eq_or_imp]
    tauto

theorem topic?_plusAll_eq_none (t : Totals) (es : List Entry) (k : Topic) :
    (t.plusAll es).topic? k = none ↔ t.topic? k = none ∧ ∀ e ∈ es, e.topic ≠ k := by
  have hsome := isSome_topic?_plusAll t es k
  rw [← Option.not_isSome_iff_eq_none, hsome, not_or, Option.not_isSome_iff_eq_none]
  simp

theorem Tended.plus (h : t.Tended) (e : Entry) : (t.plus e).Tended where
  occupied k row hrow := by
    rw [topic?_plus] at hrow
    split at hrow
    · rw [← Option.some.inj hrow]
      exact TopicTotals.isVacant_plus e _
    · exact h.occupied k row hrow
  spoken name hname := (isSome_topic?_plus t e _).mpr (.inr (h.spoken name hname))

theorem Tended.plusAll (h : t.Tended) (es : List Entry) : (t.plusAll es).Tended := by
  induction es with
  | nil => exact h
  | cons e es ih =>
    rw [plusAll_cons]
    exact ih.plus e

theorem putTopic_of_some {k : Topic} {row : TopicTotals} (h : t.topic? k = some row) :
    t.putTopic k row = t := by
  refine ext_topic? (fun a => ?_) rfl rfl
  rw [topic?_putTopic]
  split
  · rename_i hk
    rw [← hk, h]
  · rfl

theorem Tended.dropTopic_of_none (ht : t.Tended) {k : Topic} (h : t.topic? k = none) :
    t.dropTopic k = t := by
  refine ext_topic? (fun a => ?_) rfl ?_
  · rw [topic?_dropTopic]
    split
    · rename_i hk
      rw [← hk, h]
    · rfl
  · apply Std.ExtTreeSet.ext_mem
    intro name
    rw [mem_languages_dropTopic, and_iff_left_iff_imp]
    rintro hname rfl
    have hrow := ht.spoken name hname
    rw [h] at hrow
    cases hrow

/-- Taking an entry off undoes adding it. A row goes if it was made for that entry. -/
theorem yields_remove_plus (h : t.Tended) (e : Entry) :
    Yields (remove e) (t.plus e) (fun gone u => u = t ∧ gone = (t.topic? e.topic).isNone)
      fun _ _ => False := by
  have hrow : (t.plus e).topic? e.topic =
      some (((t.topic? e.topic).getD { topic := e.topic }).plus e) := by
    rw [topic?_plus, if_pos rfl]
  refine (yields_remove e).mono ?_ ?_
  · intro gone u hh
    obtain ⟨row, row', hr, hless, hgone, hu⟩ := hh
    obtain rfl := Option.some.inj (hrow.symm.trans hr)
    rw [lessCounts_plus] at hless
    obtain rfl := Except.ok.inj hless
    rw [lessVotes_plus] at hgone hu
    cases hold : t.topic? e.topic with
    | none =>
      have htrue : gone = true := by rw [hgone, hold]; rfl
      rw [if_pos htrue, plus, dropTopic_putTopic, h.dropTopic_of_none hold] at hu
      exact ⟨hu, htrue⟩
    | some old =>
      rw [hold, Option.getD_some] at hgone hu
      have hfalse : gone = false := hgone.trans (h.occupied _ _ hold)
      rw [hfalse, if_neg Bool.false_ne_true, plus, putTopic_putTopic, putTopic_of_some hold] at hu
      exact ⟨hu, hfalse⟩
  · intro f u hh
    obtain ⟨-, ⟨hnone, -⟩ | ⟨row, hr, hless⟩⟩ := hh
    · cases hrow.symm.trans hnone
    · obtain rfl := Option.some.inj (hrow.symm.trans hr)
      rw [lessCounts_plus] at hless
      cases hless

theorem yields_addAll (t : Totals) (es : List Entry) :
    Yields (es.forM add) t (fun _ u => u = t.plusAll es) fun _ _ => False := by
  induction es generalizing t with
  | nil => exact rfl
  | cons e es ih =>
    change Yields (add e >>= fun _ => es.forM add) t _ _
    rw [yields_bind]
    refine (yields_add e).imp ?_
    rintro _ _ rfl
    exact ih (t.plus e)

/-- Entries that are taken off leave what the others add up to. -/
theorem yields_removeAll (h : t.Tended) (gone rest : List Entry) :
    Yields (gone.mapM remove) (t.plusAll (gone ++ rest)) (fun _ u => u = t.plusAll rest)
      fun _ _ => False := by
  induction gone with
  | nil => exact rfl
  | cons e gone ih =>
    simp only [List.mapM_cons, yields_bind, yields_pure, List.cons_append, plusAll_cons]
    refine (yields_remove_plus (h.plusAll (gone ++ rest)) e).imp ?_
    rintro _ _ ⟨rfl, -⟩
    exact ih

/-- Where no row is vacant and each language has a row, adding entries and taking them off in another
order fails nowhere and leads back to the start. The order of adding does not matter either, and the row
of an entry goes with the last that is under its topic, if it was not there at the start. -/
theorem removeAll_addAll (h : t.Tended) (hperm : es.Perm ps)
    (hno : NoOverflow (do es.forM add; ps.mapM remove : Update Totals (List Bool)) t) :
    ∃ u, es.forM add t = .ok ⟨⟩ u ∧
      (∀ qs, es.Perm qs → NoOverflow (qs.forM add) t → qs.forM add t = .ok ⟨⟩ u) ∧
      (∃ answers, ps.mapM remove u = .ok answers t) ∧
      ∀ gone e rest, ps = gone ++ e :: rest → ∃ answers v dropped w,
        gone.mapM remove u = .ok answers v ∧ remove e v = .ok dropped w ∧
        (∀ k, (v.topic? k).isSome ∧ w.topic? k = none ↔
          k = e.topic ∧ t.topic? k = none ∧ ∀ e' ∈ rest, e'.topic ≠ k) ∧
        (dropped = true ↔ w.topic? e.topic = none) := by
  obtain ⟨hadd, hremove⟩ := (noOverflow_bind _ _).mp hno
  obtain ⟨_, _, hrun, rfl⟩ := (yields_addAll t es).exists_ok hadd
  have hremove := hremove.of_ok hrun
  refine ⟨_, hrun, ?_, ?_, ?_⟩
  · intro qs hqs hfit
    obtain ⟨_, _, hother, rfl⟩ := (yields_addAll t qs).exists_ok hfit
    rw [hother, plusAll_perm t hqs]
  · have hback := yields_removeAll h ps []
    rw [List.append_nil, ← plusAll_perm t hperm] at hback
    obtain ⟨answers, _, hanswers, rfl⟩ := hback.exists_ok hremove
    exact ⟨answers, hanswers⟩
  · intro gone e rest hsplit
    rw [hsplit] at hperm hremove
    rw [List.mapM_append, noOverflow_bind] at hremove
    obtain ⟨hgone, hrest⟩ := hremove
    have hback := yields_removeAll h gone (e :: rest)
    rw [← plusAll_perm t hperm] at hback
    obtain ⟨answers, _, hanswers, rfl⟩ := hback.exists_ok hgone
    have hrest := hrest.of_ok hanswers
    rw [List.mapM_cons, noOverflow_bind, noOverflow_bind, plusAll_cons] at hrest
    obtain ⟨dropped, _, hdropped, rfl, hmade⟩ :=
      (yields_remove_plus (h.plusAll rest) e).exists_ok hrest.1.1
    rw [← plusAll_cons] at hdropped
    refine ⟨answers, _, dropped, _, hanswers, hdropped, fun k => ?_, ?_⟩
    · rw [← topic?_plusAll_eq_none, plusAll_cons, isSome_topic?_plus]
      refine and_congr_left fun hnone => ?_
      simp [hnone, eq_comm]
    · rw [hmade, Option.isNone_iff_eq_none]

theorem tended_englishTotals : englishTotals.Tended where
  occupied topic row hrow := by
    obtain ⟨e, he, htopic⟩ := topicRows_englishTotals.exists_entry hrow
    rw [topicRows_englishTotals.row_eq topic row hrow, Bool.eq_false_iff, Ne,
      TopicTotals.recount_isVacant_iff]
    exact fun hnone => hnone e he htopic
  spoken name hname := by
    have hen : "en" = name := by
      simpa [englishTotals, registerLanguage, putTopic, Totals.empty] using hname
    rw [← hen]
    decide +kernel

/-- A reply in English, and a post and a reply under a tag that is new. -/
def artContributions : List Entry :=
  [{ englishPost with content := 2, parent := some 1, netVotes := -4 },
    { englishPost with topic := .tag "art", content := 3, netVotes := 5, childrenRshares2 := 6 },
    { englishPost with topic := .tag "art", content := 4, parent := some 3, netVotes := -7 }]

/-- Of the rows that the three entries are in, only that of the tag goes, and with the second of its
entries. -/
theorem removeAll_addAll_art :
    let ps := artContributions.rotate 1
    englishTotals.Tended ∧ artContributions.Perm ps ∧ ∃ u answers,
      artContributions.forM add englishTotals = .ok ⟨⟩ u ∧
      ps.mapM remove u = .ok answers englishTotals ∧ answers = [false, true, false] := by
  intro ps
  have hperm : artContributions.Perm ps := (List.rotate_perm _ 1).symm
  let m : Update Totals (List Bool) := do artContributions.forM add; ps.mapM remove
  have hreturns : Update.returns m englishTotals = true := by decide +kernel
  obtain ⟨u, hu, -, ⟨answers, hanswers⟩, -⟩ :=
    removeAll_addAll tended_englishTotals hperm (ne_overflow_of_returns hreturns)
  have hanswer : (Update.answer m englishTotals).toOption = some [false, true, false] := by
    decide +kernel
  have hm : m englishTotals = .ok answers englishTotals := (bind_of_ok hu).trans hanswers
  rw [answer_of_ok hm] at hanswer
  exact ⟨tended_englishTotals, hperm, u, answers, hu, hanswers, Option.some.inj hanswer⟩

end Totals

end TagCatalog
