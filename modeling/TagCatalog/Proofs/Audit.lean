import TagCatalog.Proofs.Soundness

/-! The tallies of an audit are rows over the entries just as the kept totals are. An audit is clean
just if all that it recounts is right, as it is in a sound catalog. -/

namespace TagCatalog

section

variable {κ ρ : Type} [DecidableEq κ] [Ord κ] [Std.TransOrd κ] {key : Entry → κ}
  {recount : κ → List Entry → ρ → ρ} {m : Std.ExtTreeMap κ ρ} {es : List Entry}

theorem Rows.foldl {step : Std.ExtTreeMap κ ρ → Entry → Std.ExtTreeMap κ ρ}
    (hl : Local key recount)
    (hstep : ∀ m es e, Rows key recount m es → Rows key recount (step m e) (e :: es))
    (es : List Entry) : Rows key recount (es.foldl step ∅) es := by
  -- The rows that a fold starts from are those of entries seen before, the last one first.
  have hgen (m : Std.ExtTreeMap κ ρ) (seen : List Entry) (h : Rows key recount m seen) :
      Rows key recount (es.foldl step m) (es.reverse ++ seen) := by
    induction es generalizing m seen with
    | nil => exact h
    | cons e es ih =>
      have hh := ih (step m e) (e :: seen) (hstep m seen e h)
      rwa [List.reverse_cons, List.append_assoc]
  have hempty : Rows key recount ∅ [] := by constructor <;> simp
  have hrows := hgen ∅ [] hempty
  rw [List.append_nil] at hrows
  exact hrows.perm hl es.reverse_perm

theorem Rows.count [Std.LawfulEqOrd κ] (hl : Local key recount) (h : Rows key recount m es)
    (e : Entry) {row : ρ} (hrow : row = recount (key e) (e :: es) row) :
    Rows key recount (m.insert (key e) row) (e :: es) :=
  h.insert hl ⟨e, by simp, rfl⟩ hrow fun _ ha => (filter_cons_of_key_ne ha es).symm

end

namespace Tally

/-- The tally that entries add up to under a topic. -/
def recount (topic : Topic) (es : List Entry) : Tally where
  posts := es.countP fun e => e.topic = topic && e.isRoot
  comments := es.countP fun e => e.topic = topic && !e.isRoot

theorem recount_local :
    Local Entry.topic (fun topic es (_ : Tally) => recount topic es) := by
  intro topic es es' _ h
  have hcount (p : Entry → Bool) : (es.filter (·.topic = topic)).countP p =
      (es'.filter (·.topic = topic)).countP p := h.countP_eq p
  have hroots := hcount (·.isRoot)
  have hreplies := hcount (!·.isRoot)
  simp only [List.countP_filter, Bool.and_comm] at hroots hreplies
  simp only [recount, hroots, hreplies]

theorem recount_cons_self (e : Entry) (es : List Entry) :
    recount e.topic (e :: es) = (recount e.topic es).add e := by
  cases hr : e.isRoot <;> simp [recount, add, hr]

theorem recount_of_not_mem {topic : Topic} {es : List Entry} (h : ∀ e ∈ es, e.topic ≠ topic) :
    recount topic es = {} := by
  have hroots : es.countP (fun e => e.topic = topic && e.isRoot) = 0 := by
    simp +contextual [List.countP_eq_zero, h]
  have hreplies : es.countP (fun e => e.topic = topic && !e.isRoot) = 0 := by
    simp +contextual [List.countP_eq_zero, h]
  simp only [recount, hroots, hreplies]

end Tally

theorem rows_tallyTopic (es : List Entry) :
    Rows Entry.topic (fun topic es _ => Tally.recount topic es) (es.foldl tallyTopic ∅) es := by
  refine Rows.foldl Tally.recount_local ?_ es
  intro m es e h
  refine h.count Tally.recount_local e ?_
  rw [Tally.recount_cons_self]
  cases hr : m[e.topic]? with
  | some t => rw [h.row_eq e.topic t hr]; rfl
  | none =>
    have hnone : ∀ a ∈ es, a.topic ≠ e.topic := by
      intro a ha hat
      obtain ⟨row, hrow⟩ := h.exists_row ha
      simp [hat, hr] at hrow
    rw [Tally.recount_of_not_mem hnone]
    rfl

theorem authorship_count_local :
    Local Entry.authorship fun key es (_ : Nat) => es.countP (·.authorship = key) := by
  intro key es es' _ h
  simpa [List.countP_eq_length_filter] using h.length_eq

theorem rows_tallyAuthor (es : List Entry) :
    Rows Entry.authorship (fun key es _ => es.countP (·.authorship = key))
      (es.foldl tallyAuthor ∅) es := by
  refine Rows.foldl authorship_count_local ?_ es
  intro m es e h
  refine h.count authorship_count_local e ?_
  simp only [List.countP_cons, decide_true, if_true]
  cases hr : m[e.authorship]? with
  | some n => rw [h.row_eq e.authorship n hr]; rfl
  | none =>
    have hnone : es.countP (·.authorship = e.authorship) = 0 := by
      rw [List.countP_eq_zero]
      intro a ha hae
      obtain ⟨row, hrow⟩ := h.exists_row ha
      simp [of_decide_eq_true hae, hr] at hrow
    rw [hnone]
    rfl

theorem getElem?_tallyTopic (es : List Entry) (topic : Topic) :
    (es.foldl tallyTopic ∅)[topic]? =
      if ∃ e ∈ es, e.topic = topic then some (Tally.recount topic es) else none := by
  have hrows := rows_tallyTopic es
  split
  · rename_i hes
    have hmem := (hrows.mem_iff topic).mpr hes
    obtain ⟨t, ht⟩ := Option.isSome_iff_exists.mp (Std.ExtTreeMap.mem_iff_isSome_getElem?.mp hmem)
    rw [ht, hrows.row_eq topic t ht]
  · rename_i hes
    have hmem := (hrows.mem_iff topic).not.mpr hes
    rwa [Std.ExtTreeMap.mem_iff_isSome_getElem?, Option.not_isSome_iff_eq_none] at hmem

theorem getD_tallyAuthor (es : List Entry) (key : Authorship) :
    (es.foldl tallyAuthor ∅)[key]?.getD 0 = es.countP (·.authorship = key) := by
  have hrows := rows_tallyAuthor es
  cases hn : (es.foldl tallyAuthor ∅)[key]? with
  | some n => exact hrows.row_eq key n hn
  | none =>
    have hmem := (hrows.mem_iff key).not.mp (by simp [Std.ExtTreeMap.mem_iff_isSome_getElem?, hn])
    have hzero : es.countP (·.authorship = key) = 0 := by
      simpa [List.countP_eq_zero] using hmem
    exact hzero.symm

theorem mem_tallyTopic {es : List Entry} {topic : Topic} (h : ∃ e ∈ es, e.topic = topic) :
    (topic, Tally.recount topic es) ∈ (es.foldl tallyTopic ∅).toList := by
  rw [Std.ExtTreeMap.mem_toList_iff_getElem?_eq_some, getElem?_tallyTopic, if_pos h]

theorem countP_authorship (es : List Entry) (author : String) (topic : Topic) :
    es.countP (·.authorship = ⟨author, topic⟩) =
      es.countP fun e => e.author = author && e.topic = topic := by
  simp [Entry.authorship]

theorem mem_tallyAuthor {es : List Entry} {author : String} {topic : Topic}
    (h : 0 < es.countP fun e => e.author = author && e.topic = topic) :
    (⟨author, topic⟩, es.countP fun e => e.author = author && e.topic = topic) ∈
      (es.foldl tallyAuthor ∅).toList := by
  have hrows := rows_tallyAuthor es
  rw [← countP_authorship] at h ⊢
  obtain ⟨e, he, hkey⟩ := List.countP_pos_iff.mp h
  obtain ⟨n, hn⟩ := hrows.exists_row he
  rw [of_decide_eq_true hkey] at hn
  rw [Std.ExtTreeMap.mem_toList_iff_getElem?_eq_some, hn, hrows.row_eq _ n hn]

namespace Catalog

/-- Rows are filed under what they say they are about. -/
structure Keyed (c : Catalog) : Prop where
  topics : ∀ topic row, c.totals.topic? topic = some row → row.topic = topic
  authors : ∀ author topic row, c.totals.author? author topic = some row →
    row.author = author ∧ row.topic = topic

/-- All that an audit recounts is as the entries have it. -/
structure Counted (c : Catalog) : Prop where
  topic_isSome : ∀ topic, (c.totals.topic? topic).isSome ↔ ∃ e ∈ c.table.toList, e.topic = topic
  topic_row : ∀ topic row, c.totals.topic? topic = some row →
    row.topPosts = c.table.toList.countP (fun e => e.topic = topic && e.isRoot) ∧
    row.comments = c.table.toList.countP (fun e => e.topic = topic && !e.isRoot)
  author_posts : ∀ author topic, ((c.totals.author? author topic).map (·.posts)).getD 0 =
    c.table.toList.countP (fun e => e.author = author && e.topic = topic)
  language : ∀ name, name ∈ c.totals.languages ↔
    ∃ e ∈ c.table.toList, e.topic = .language name

/-- What an audit has to report: a topic, an authorship or a language on which the kept totals and
the entries disagree. -/
inductive Drifts (c : Catalog) : Drift → Prop
  | missing {topic : Topic} (hentry : ∃ e ∈ c.table.toList, e.topic = topic)
    (hrow : c.totals.topic? topic = none) : Drifts c (.missing topic)
  | orphan {topic : Topic} (hentry : ∀ e ∈ c.table.toList, e.topic ≠ topic)
    (hrow : (c.totals.topic? topic).isSome) : Drifts c (.orphan topic)
  | counts {topic : Topic} {row : TopicTotals} {posts comments : Nat}
    (hentry : ∃ e ∈ c.table.toList, e.topic = topic) (hrow : c.totals.topic? topic = some row)
    (hposts : posts = c.table.toList.countP fun e => e.topic = topic && e.isRoot)
    (hcomments : comments = c.table.toList.countP fun e => e.topic = topic && !e.isRoot)
    (hdiffer : posts ≠ row.topPosts ∨ comments ≠ row.comments) :
    Drifts c (.counts topic posts row.topPosts comments row.comments)
  | author {author : String} {topic : Topic} {expected actual : Nat}
    (hexpected : expected = c.table.toList.countP fun e => e.author = author && e.topic = topic)
    (hactual : actual = ((c.totals.author? author topic).map (·.posts)).getD 0)
    (hdiffer : expected ≠ actual) : Drifts c (.author author topic expected actual)
  | registered {name : String} (hname : name ∈ c.totals.languages)
    (hrow : c.totals.topic? (.language name) = none) : Drifts c (.language name true)
  | unregistered {name : String} (hname : name ∉ c.totals.languages)
    (hrow : (c.totals.topic? (.language name)).isSome) : Drifts c (.language name false)

section

variable {totals : Totals} {topic : Topic} {d : Drift}

theorem topicDrift_eq_some_iff {t : Tally} : topicDrift totals topic t = some d ↔
    totals.topic? topic = none ∧ .missing topic = d ∨
    ∃ row, totals.topic? topic = some row ∧ (t.posts ≠ row.topPosts ∨ t.comments ≠ row.comments) ∧
      .counts topic t.posts row.topPosts t.comments row.comments = d := by
  unfold topicDrift
  cases totals.topic? topic with
  | none => simp
  | some row =>
    by_cases hp : t.posts = row.topPosts
    · by_cases hc : t.comments = row.comments
      · simp [hp, hc]
      · simp [hp, hc, Ne.symm hc]
    · simp [hp, Ne.symm hp]

theorem orphanDrift_eq_some_iff {tallies : TopicTallies} {row : TopicTotals} :
    orphanDrift tallies row = some d ↔ row.topic ∉ tallies ∧ .orphan row.topic = d := by
  simp [orphanDrift]

theorem authorDrift_eq_some_iff {tallies : AuthorTallies} {row : AuthorTotals} :
    authorDrift tallies row = some d ↔
      ∃ n, n = tallies[Authorship.mk row.author row.topic]?.getD 0 ∧ n ≠ row.posts ∧
        .author row.author row.topic n row.posts = d := by
  simp [authorDrift]

theorem unrecordedDrift_eq_some_iff {rows : List AuthorTotals} {key : Authorship} {n : Nat} :
    unrecordedDrift rows key n = some d ↔
      (∀ row ∈ rows, row.author = key.author → row.topic ≠ key.topic) ∧
        .author key.author key.topic n 0 = d := by
  simp [unrecordedDrift]

theorem registeredDrift_eq_some_iff {name : String} : registeredDrift totals name = some d ↔
    totals.topic? (.language name) = none ∧ .language name true = d := by
  simp [registeredDrift]

theorem unregisteredDrift_eq_some_iff {row : TopicTotals} :
    unregisteredDrift totals row = some d ↔
      row.topic.kind = .language ∧ row.topic.name ∉ totals.languages ∧
        .language row.topic.name false = d := by
  simp [unregisteredDrift, and_assoc, ← Std.ExtTreeSet.contains_iff_mem]

end

variable {c : Catalog}

theorem Keyed.mem_topicRows (h : c.Keyed) {row : TopicTotals} :
    row ∈ c.totals.topicRows ↔ c.totals.topic? row.topic = some row := by
  rw [Totals.topicRows, mem_values]
  constructor
  · intro hh
    obtain ⟨topic, hr⟩ := hh
    rw [h.topics topic row hr]
    exact hr
  · intro hr
    exact ⟨row.topic, hr⟩

theorem Keyed.mem_authorRows (h : c.Keyed) {row : AuthorTotals} :
    row ∈ c.totals.authorRows ↔ c.totals.author? row.author row.topic = some row := by
  rw [Totals.authorRows, mem_values]
  constructor
  · intro hh
    obtain ⟨key, hr⟩ := hh
    obtain ⟨hauthor, htopic⟩ := h.authors key.author key.topic row hr
    rw [hauthor, htopic]
    exact hr
  · intro hr
    exact ⟨⟨row.author, row.topic⟩, hr⟩

theorem drifts_of_topicDrift {p : Topic × Tally} {d : Drift}
    (hp : p ∈ (c.table.toList.foldl tallyTopic ∅).toList)
    (hd : topicDrift c.totals p.1 p.2 = some d) : c.Drifts d := by
  have htally := rows_tallyTopic c.table.toList
  have hp := Std.ExtTreeMap.mem_toList_iff_getElem?_eq_some.mp hp
  have hentry := htally.exists_entry hp
  have hcounts := htally.row_eq p.1 p.2 hp
  rcases topicDrift_eq_some_iff.mp hd with ⟨hrow, rfl⟩ | ⟨row, hrow, hdiffer, rfl⟩
  · exact .missing hentry hrow
  · exact .counts hentry hrow (congrArg Tally.posts hcounts) (congrArg Tally.comments hcounts)
      hdiffer

theorem Keyed.drifts_of_orphanDrift (h : c.Keyed) {row : TopicTotals} {d : Drift}
    (hrow : row ∈ c.totals.topicRows)
    (hd : orphanDrift (c.table.toList.foldl tallyTopic ∅) row = some d) : c.Drifts d := by
  obtain ⟨htally, rfl⟩ := orphanDrift_eq_some_iff.mp hd
  rw [(rows_tallyTopic c.table.toList).mem_iff] at htally
  exact .orphan (by simpa using htally) (by simp [h.mem_topicRows.mp hrow])

theorem Keyed.drifts_of_authorDrift (h : c.Keyed) {row : AuthorTotals} {d : Drift}
    (hrow : row ∈ c.totals.authorRows)
    (hd : authorDrift (c.table.toList.foldl tallyAuthor ∅) row = some d) : c.Drifts d := by
  obtain ⟨n, hn, hdiffer, rfl⟩ := authorDrift_eq_some_iff.mp hd
  rw [getD_tallyAuthor, countP_authorship] at hn
  exact .author hn (by simp [h.mem_authorRows.mp hrow]) hdiffer

theorem Keyed.author?_eq_none_of_not_mem (h : c.Keyed) {author : String} {topic : Topic}
    (hnone : ∀ row ∈ c.totals.authorRows, row.author = author → row.topic ≠ topic) :
    c.totals.author? author topic = none := by
  by_contra hh
  obtain ⟨row, hrow⟩ := Option.ne_none_iff_exists'.mp hh
  obtain ⟨rfl, rfl⟩ := h.authors author topic row hrow
  exact hnone row (h.mem_authorRows.mpr hrow) rfl rfl

theorem Keyed.drifts_of_unrecordedDrift (h : c.Keyed) {p : Authorship × Nat} {d : Drift}
    (hp : p ∈ (c.table.toList.foldl tallyAuthor ∅).toList)
    (hd : unrecordedDrift c.totals.authorRows p.1 p.2 = some d) : c.Drifts d := by
  have htally := rows_tallyAuthor c.table.toList
  have hp := Std.ExtTreeMap.mem_toList_iff_getElem?_eq_some.mp hp
  obtain ⟨e, he, hkey⟩ := htally.exists_entry hp
  have hcount : p.2 = _ := (htally.row_eq p.1 p.2 hp).trans (countP_authorship _ _ _)
  have hpos : 0 < c.table.toList.countP (·.authorship = p.1) :=
    List.countP_pos_iff.mpr ⟨e, he, decide_eq_true hkey⟩
  obtain ⟨hnone, rfl⟩ := unrecordedDrift_eq_some_iff.mp hd
  rw [← htally.row_eq p.1 p.2 hp] at hpos
  exact .author hcount (by simp [h.author?_eq_none_of_not_mem hnone]) (Nat.ne_of_gt hpos)

theorem drifts_of_registeredDrift {name : String} {d : Drift} (hname : name ∈ c.languages)
    (hd : registeredDrift c.totals name = some d) : c.Drifts d := by
  obtain ⟨hrow, rfl⟩ := registeredDrift_eq_some_iff.mp hd
  exact .registered (Std.ExtTreeSet.mem_toList.mp hname) hrow

theorem Keyed.drifts_of_unregisteredDrift (h : c.Keyed) {row : TopicTotals} {d : Drift}
    (hrow : row ∈ c.totals.topicRows) (hd : unregisteredDrift c.totals row = some d) :
    c.Drifts d := by
  obtain ⟨hkind, hname, rfl⟩ := unregisteredDrift_eq_some_iff.mp hd
  have htopic : Topic.language row.topic.name = row.topic := by rw [Topic.language, ← hkind]
  exact .unregistered hname (by simp [htopic, h.mem_topicRows.mp hrow])

/-- An authorship with a wrong count is met among the rows or, if it has none, among the tallies. -/
theorem Keyed.exists_authorDrift (h : c.Keyed) {author : String} {topic : Topic}
    (hdiffer : c.table.toList.countP (fun e => e.author = author && e.topic = topic) ≠
      ((c.totals.author? author topic).map (·.posts)).getD 0) :
    let d := Drift.author author topic
      (c.table.toList.countP fun e => e.author = author && e.topic = topic)
      (((c.totals.author? author topic).map (·.posts)).getD 0)
    (∃ row ∈ c.totals.authorRows,
      authorDrift (c.table.toList.foldl tallyAuthor ∅) row = some d) ∨
    ∃ p ∈ (c.table.toList.foldl tallyAuthor ∅).toList,
      unrecordedDrift c.totals.authorRows p.1 p.2 = some d := by
  intro d
  cases hrow : c.totals.author? author topic with
  | some row =>
    obtain ⟨rfl, rfl⟩ := h.authors author topic row hrow
    refine .inl ⟨row, h.mem_authorRows.mpr hrow, authorDrift_eq_some_iff.mpr ⟨_, rfl, ?_⟩⟩
    rw [getD_tallyAuthor, countP_authorship]
    rw [hrow] at hdiffer
    exact ⟨hdiffer, by simp [d, hrow]⟩
  | none =>
    rw [hrow] at hdiffer
    refine .inr ⟨_, mem_tallyAuthor (Nat.pos_of_ne_zero hdiffer), ?_⟩
    refine unrecordedDrift_eq_some_iff.mpr ⟨fun row hmem hauthor htopic => ?_, by simp [d, hrow]⟩
    have hsome := h.mem_authorRows.mp hmem
    simp [hauthor, htopic, hrow] at hsome

/-- The loops of an audit report all that has to be reported, and nothing else. -/
theorem Keyed.mem_drift_iff (h : c.Keyed) {d : Drift} : d ∈ c.audit.drift ↔ c.Drifts d := by
  simp only [audit, List.mem_append, List.mem_filterMap]
  constructor
  · rintro (((((⟨p, hp, hd⟩ | ⟨row, hrow, hd⟩) | ⟨row, hrow, hd⟩) | ⟨p, hp, hd⟩) |
      ⟨name, hname, hd⟩) | ⟨row, hrow, hd⟩)
    · exact drifts_of_topicDrift hp hd
    · exact h.drifts_of_orphanDrift hrow hd
    · exact h.drifts_of_authorDrift hrow hd
    · exact h.drifts_of_unrecordedDrift hp hd
    · exact drifts_of_registeredDrift hname hd
    · exact h.drifts_of_unregisteredDrift hrow hd
  · intro hd
    cases hd with
    | @missing topic hentry hrow =>
      have hd : topicDrift c.totals topic (Tally.recount topic c.table.toList) =
          some (.missing topic) := topicDrift_eq_some_iff.mpr (.inl ⟨hrow, rfl⟩)
      exact .inl (.inl (.inl (.inl (.inl ⟨_, mem_tallyTopic hentry, hd⟩))))
    | @orphan topic hentry hrow =>
      obtain ⟨row, hrow⟩ := Option.isSome_iff_exists.mp hrow
      obtain rfl := h.topics topic row hrow
      have htally := (rows_tallyTopic c.table.toList).mem_iff row.topic
      have hd := orphanDrift_eq_some_iff.mpr ⟨htally.not.mpr (by simpa using hentry), rfl⟩
      exact .inl (.inl (.inl (.inl (.inr ⟨row, h.mem_topicRows.mpr hrow, hd⟩))))
    | @counts topic row posts comments hentry hrow hposts hcomments hdiffer =>
      subst hposts hcomments
      have hd : topicDrift c.totals topic (Tally.recount topic c.table.toList) = _ :=
        topicDrift_eq_some_iff.mpr (.inr ⟨row, hrow, hdiffer, rfl⟩)
      exact .inl (.inl (.inl (.inl (.inl ⟨_, mem_tallyTopic hentry, hd⟩))))
    | author hexpected hactual hdiffer =>
      subst hexpected hactual
      rcases h.exists_authorDrift hdiffer with hd | hd
      · exact .inl (.inl (.inl (.inr hd)))
      · exact .inl (.inl (.inr hd))
    | registered hname hrow =>
      have hd := registeredDrift_eq_some_iff.mpr ⟨hrow, rfl⟩
      exact .inl (.inr ⟨_, Std.ExtTreeSet.mem_toList.mpr hname, hd⟩)
    | @unregistered name hname hrow =>
      obtain ⟨row, hrow⟩ := Option.isSome_iff_exists.mp hrow
      have htopic := h.topics (.language name) row hrow
      have hd : unregisteredDrift c.totals row = some (.language name false) :=
        unregisteredDrift_eq_some_iff.mpr (by rw [htopic]; exact ⟨rfl, hname, rfl⟩)
      exact .inr ⟨row, h.mem_topicRows.mpr (htopic ▸ hrow), hd⟩

theorem Keyed.audit_drift_eq_nil_iff (h : c.Keyed) : c.audit.drift = [] ↔ c.Counted := by
  simp only [List.eq_nil_iff_forall_not_mem, h.mem_drift_iff]
  constructor
  · intro hnone
    have hsome (topic : Topic) :
        (c.totals.topic? topic).isSome ↔ ∃ e ∈ c.table.toList, e.topic = topic := by
      constructor
      · intro hrow
        by_contra hentry
        exact hnone _ (.orphan (by simpa using hentry) hrow)
      · intro hentry
        by_contra hrow
        exact hnone _ (.missing hentry (by simpa using hrow))
    refine ⟨hsome, fun topic row hrow => ?_, fun author topic => ?_, fun name => ?_⟩
    · have hentry := (hsome topic).mp (by simp [hrow])
      by_contra hcounts
      exact hnone _ (.counts hentry hrow rfl rfl (by omega))
    · by_contra hposts
      exact hnone _ (.author rfl rfl (Ne.symm hposts))
    · rw [← hsome]
      constructor
      · intro hname
        by_contra hrow
        exact hnone _ (.registered hname (by simpa using hrow))
      · intro hrow
        by_contra hname
        exact hnone _ (.unregistered hname hrow)
  · intro hc d hd
    cases hd with
    | missing hentry hrow =>
      have hsome := (hc.topic_isSome _).mpr hentry
      simp [hrow] at hsome
    | orphan hentry hrow =>
      obtain ⟨e, he, htopic⟩ := (hc.topic_isSome _).mp hrow
      exact hentry e he htopic
    | counts hentry hrow hposts hcomments hdiffer =>
      have hcounts := hc.topic_row _ _ hrow
      omega
    | author hexpected hactual hdiffer =>
      exact hdiffer (hexpected.trans ((hc.author_posts _ _).symm.trans hactual.symm))
    | registered hname hrow =>
      have hsome := (hc.topic_isSome _).mpr ((hc.language _).mp hname)
      simp [hrow] at hsome
    | unregistered hname hrow => exact hname ((hc.language _).mpr ((hc.topic_isSome _).mp hrow))

theorem Sound.keyed (h : c.Sound) : c.Keyed := by
  refine ⟨fun topic row hr => ?_, fun author topic row hr => ?_⟩
  · rw [h.totals.topics.row_eq topic row hr]
    rfl
  · rw [h.totals.authors.row_eq ⟨author, topic⟩ row hr]
    exact ⟨rfl, rfl⟩

theorem Sound.counted (h : c.Sound) : c.Counted where
  topic_isSome topic :=
    Std.ExtTreeMap.mem_iff_isSome_getElem?.symm.trans (h.totals.topics.mem_iff topic)
  topic_row topic row hr := by
    have hrow := h.totals.topics.row_eq topic row hr
    exact ⟨congrArg TopicTotals.topPosts hrow, congrArg TopicTotals.comments hrow⟩
  author_posts author topic := by
    cases hr : c.totals.author? author topic with
    | some row =>
      have hrow := h.totals.authors.row_eq ⟨author, topic⟩ row hr
      simpa [AuthorTotals.recount, Entry.authorship] using congrArg AuthorTotals.posts hrow
    | none =>
      have hzero : c.table.toList.countP (fun e => e.author = author && e.topic = topic) = 0 := by
        rw [List.countP_eq_zero]
        intro e he hkey
        obtain ⟨row, hrow⟩ := h.totals.authors.exists_row he
        have hauthorship : e.authorship = ⟨author, topic⟩ := by simpa [Entry.authorship] using hkey
        rw [hauthorship] at hrow
        cases hr.symm.trans hrow
      exact hzero.symm
  language := h.totals.languages

theorem Sound.audit_drift (h : c.Sound) : c.audit.drift = [] :=
  h.keyed.audit_drift_eq_nil_iff.mpr h.counted

end Catalog

end TagCatalog
