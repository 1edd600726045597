import TagCatalog.Catalog.Audit
import TagCatalog.Proofs.Totals

/-! The totals that a list of entries adds up to. Putting an entry in, taking one out and swapping
two of one topic change the kept totals just as they change the list. -/

namespace TagCatalog

section

variable {κ ρ : Type} [DecidableEq κ]

theorem exists_key_iff {key : Entry → κ} {es : List Entry} {k : κ} :
    (∃ e ∈ es, key e = k) ↔ es.filter (key · = k) ≠ [] := by
  simp [List.filter_eq_nil_iff]

theorem filter_cons_of_key_ne {key : Entry → κ} {e : Entry} {a : κ} (h : key e ≠ a)
    (es : List Entry) : (e :: es).filter (key · = a) = es.filter (key · = a) := by
  simp [h]

/-- A recount counts the entries of its key only, in whatever order. -/
def Local (key : Entry → κ) (recount : κ → List Entry → ρ → ρ) : Prop :=
  ∀ k es es' row, (es.filter (key · = k)).Perm (es'.filter (key · = k)) →
    recount k es row = recount k es' row

end

section

variable {κ ρ : Type} [Ord κ] [Std.TransOrd κ]

/-- A key has a row if it has entries and not otherwise, and the row is their recount. What a row
holds besides is left as it is. -/
structure Rows (key : Entry → κ) (recount : κ → List Entry → ρ → ρ) (m : Std.ExtTreeMap κ ρ)
    (es : List Entry) : Prop where
  mem_iff : ∀ k, k ∈ m ↔ ∃ e ∈ es, key e = k
  row_eq : ∀ (k : κ) (row : ρ), m[k]? = some row → row = recount k es row

variable {key : Entry → κ} {recount : κ → List Entry → ρ → ρ} {m : Std.ExtTreeMap κ ρ}
  {es es' : List Entry}

theorem Rows.exists_row (h : Rows key recount m es) {e : Entry} (he : e ∈ es) :
    ∃ row, m[key e]? = some row := by
  have hm : key e ∈ m := (h.mem_iff _).mpr ⟨e, he, rfl⟩
  exact Option.isSome_iff_exists.mp (Std.ExtTreeMap.mem_iff_isSome_getElem?.mp hm)

theorem Rows.exists_entry (h : Rows key recount m es) {k : κ} {row : ρ} (hr : m[k]? = some row) :
    ∃ e ∈ es, key e = k :=
  (h.mem_iff k).mp (Std.ExtTreeMap.mem_iff_isSome_getElem?.mpr (by simp [hr]))

theorem Rows.getElem?_eq {m' : Std.ExtTreeMap κ ρ} (h : Rows key recount m es)
    (h' : Rows key recount m' es') {k : κ} (hkey : (∃ e ∈ es, key e = k) ↔ ∃ e ∈ es', key e = k)
    (hrow : ∀ row row', m[k]? = some row → m'[k]? = some row' →
      recount k es row = recount k es' row') : m[k]? = m'[k]? := by
  have hmem : k ∈ m ↔ k ∈ m' := by rw [h.mem_iff, h'.mem_iff, hkey]
  simp only [Std.ExtTreeMap.mem_iff_isSome_getElem?] at hmem
  cases hr : m[k]? with
  | none =>
    rw [hr] at hmem
    exact (Option.not_isSome_iff_eq_none.mp (hmem.not.mp (by simp))).symm
  | some row =>
    rw [hr] at hmem
    obtain ⟨row', hr'⟩ := Option.isSome_iff_exists.mp (hmem.mp rfl)
    rw [hr', h.row_eq k row hr, h'.row_eq k row' hr', hrow row row' hr hr']

/-- The keys of the entries and their recounts are all that rows hold. -/
theorem Rows.eq {m' : Std.ExtTreeMap κ ρ} [Std.LawfulEqOrd κ] (h : Rows key recount m es)
    (h' : Rows key recount m' es') (hkeys : ∀ k, (∃ e ∈ es, key e = k) ↔ ∃ e ∈ es', key e = k)
    (hrows : ∀ (k : κ) (row row' : ρ), m[k]? = some row → m'[k]? = some row' →
      recount k es row = recount k es' row') : m = m' := by
  apply Std.ExtTreeMap.ext_getElem?
  exact fun k => h.getElem?_eq h' (hkeys k) (hrows k)

variable [DecidableEq κ]

theorem Rows.perm (hl : Local key recount) (h : Rows key recount m es) (hp : es.Perm es') :
    Rows key recount m es' where
  mem_iff k := by simp [h.mem_iff, hp.mem_iff]
  row_eq k row hr := (h.row_eq k row hr).trans (hl k es es' row (hp.filter _))

variable [Std.LawfulEqOrd κ]

theorem Rows.insert (hl : Local key recount) (h : Rows key recount m es) {k : κ} {row : ρ}
    (hk : ∃ e ∈ es', key e = k) (hrow : row = recount k es' row)
    (hother : ∀ a, k ≠ a → es.filter (key · = a) = es'.filter (key · = a)) :
    Rows key recount (m.insert k row) es' where
  mem_iff a := by
    simp only [Std.ExtTreeMap.mem_insert, Std.compare_eq_iff_eq]
    by_cases ha : k = a
    · subst ha
      simpa using hk
    · simp only [ha, false_or, h.mem_iff, exists_key_iff, hother a ha]
  row_eq a r hr := by
    rw [getElem?_insert_eq] at hr
    split at hr
    · rename_i ha
      obtain rfl := ha
      obtain rfl := Option.some.inj hr
      exact hrow
    · rename_i ha
      exact (h.row_eq a r hr).trans (hl a es es' r (List.Perm.of_eq (hother a ha)))

theorem Rows.rewrite (hl : Local key recount) (h : Rows key recount m es) {k : κ} {old row : ρ}
    (hold : m[k]? = some old) (hrow : row = recount k es row) :
    Rows key recount (m.insert k row) es :=
  h.insert hl (h.exists_entry hold) hrow fun _ _ => rfl

theorem Rows.erase (hl : Local key recount) (h : Rows key recount m es) {k : κ}
    (hk : ∀ e ∈ es', key e ≠ k)
    (hother : ∀ a, k ≠ a → es.filter (key · = a) = es'.filter (key · = a)) :
    Rows key recount (m.erase k) es' where
  mem_iff a := by
    simp only [Std.ExtTreeMap.mem_erase, ne_eq, Std.compare_eq_iff_eq]
    by_cases ha : k = a
    · subst ha
      simpa using hk
    · simp only [ha, not_false_eq_true, true_and, h.mem_iff, exists_key_iff, hother a ha]
  row_eq a r hr := by
    rw [getElem?_erase_eq] at hr
    split at hr
    · simp at hr
    · rename_i ha
      exact (h.row_eq a r hr).trans (hl a es es' r (List.Perm.of_eq (hother a ha)))

end

namespace TopicTotals

/-- The row that entries add up to under a topic. What was paid out is no sum over entries. -/
def recount (topic : Topic) (es : List Entry) (payout : Nat) : TopicTotals where
  topic := topic
  topPosts := es.countP fun e => e.topic = topic && e.isRoot
  comments := es.countP fun e => e.topic = topic && !e.isRoot
  netVotes := ((es.filter fun e => e.topic = topic).map (·.netVotes.toInt)).sum
  childrenRshares2 :=
    ((es.filter fun e => e.topic = topic && e.isRoot).map (·.childrenRshares2)).sum
  payout := payout

theorem recount_filter (topic : Topic) (es : List Entry) (payout : Nat) :
    recount topic (es.filter (·.topic = topic)) payout = recount topic es payout := by
  simp [recount, List.countP_filter, List.filter_filter, Bool.and_comm]

theorem recount_perm {es es' : List Entry} (h : es.Perm es') (topic : Topic) (payout : Nat) :
    recount topic es payout = recount topic es' payout := by
  have hv := ((h.filter fun e => e.topic = topic).map (·.netVotes.toInt)).sum_eq
  have hr := ((h.filter fun e => e.topic = topic && e.isRoot).map (·.childrenRshares2)).sum_eq
  simp only [recount, h.countP_eq, hv, hr]

theorem recount_local :
    Local Entry.topic (fun topic es (row : TopicTotals) => recount topic es row.payout) := by
  intro topic es es' row h
  change recount topic es row.payout = recount topic es' row.payout
  rw [← recount_filter topic es, ← recount_filter topic es']
  exact recount_perm h topic row.payout

theorem recount_cons_self (e : Entry) (es : List Entry) (payout : Nat) :
    recount e.topic (e :: es) payout = (recount e.topic es payout).plus e := by
  cases hr : e.isRoot <;> simp [recount, plus, hr, Int.add_comm, Nat.add_comm]

theorem recount_of_not_mem {topic : Topic} {es : List Entry} (h : ∀ e ∈ es, e.topic ≠ topic)
    (payout : Nat) : recount topic es payout = { topic, payout } := by
  have hf : es.filter (·.topic = topic) = [] := by simpa using h
  rw [← recount_filter, hf]
  rfl

theorem recount_isVacant_iff {topic : Topic} {es : List Entry} {payout : Nat} :
    (recount topic es payout).isVacant = true ↔ ∀ e ∈ es, e.topic ≠ topic := by
  simp only [isVacant, recount, Bool.and_eq_true, decide_eq_true_eq, List.countP_eq_zero]
  constructor
  · rintro ⟨hp, hc⟩ e he htopic
    cases hr : e.isRoot with
    | true => exact hp e he ⟨htopic, hr⟩
    | false => exact hc e he ⟨htopic, by simp [hr]⟩
  · intro h
    exact ⟨fun e he hh => h e he hh.1, fun e he hh => h e he hh.1⟩

end TopicTotals

namespace AuthorTotals

def recount (key : Authorship) (es : List Entry) (rewards : Nat) : AuthorTotals where
  author := key.author
  topic := key.topic
  posts := es.countP fun e => e.authorship = key
  rewards := rewards

theorem recount_local :
    Local Entry.authorship (fun key es (row : AuthorTotals) => recount key es row.rewards) := by
  intro key es es' row h
  simpa [recount, List.countP_eq_length_filter] using h.length_eq

end AuthorTotals

namespace Totals

abbrev TopicRows (topics : Std.ExtTreeMap Topic TopicTotals) (es : List Entry) : Prop :=
  Rows Entry.topic (fun topic es row => .recount topic es row.payout) topics es

abbrev AuthorRows (authors : Std.ExtTreeMap Authorship AuthorTotals) (es : List Entry) : Prop :=
  Rows Entry.authorship (fun key es row => .recount key es row.rewards) authors es

def LanguageNames (languages : Std.ExtTreeSet String) (es : List Entry) : Prop :=
  ∀ name, name ∈ languages ↔ ∃ e ∈ es, e.topic = .language name

structure Balanced (t : Totals) (es : List Entry) : Prop where
  topics : TopicRows t.topics es
  authors : AuthorRows t.authors es
  languages : LanguageNames t.languages es

theorem LanguageNames.perm {languages : Std.ExtTreeSet String} {es es' : List Entry}
    (h : LanguageNames languages es) (hp : es.Perm es') : LanguageNames languages es' :=
  fun name => by simp [h name, hp.mem_iff]

theorem Balanced.perm {t : Totals} {es es' : List Entry} (h : Balanced t es) (hp : es.Perm es') :
    Balanced t es' :=
  ⟨h.topics.perm TopicTotals.recount_local hp, h.authors.perm AuthorTotals.recount_local hp,
    h.languages.perm hp⟩

theorem Balanced.empty : Balanced .empty [] := by
  constructor
  · constructor <;> simp [Totals.empty]
  · constructor <;> simp [Totals.empty]
  · simp [LanguageNames, Totals.empty]

variable {t : Totals} {es : List Entry} {e : Entry} {failed : Fault → Totals → Prop}

/-- Where entries have rows, the counts of the first can be taken off, and what is left is the
recount of the others. -/
theorem TopicRows.lessCounts_head {topics : Std.ExtTreeMap Topic TopicTotals}
    (h : TopicRows topics (e :: es)) :
    ∃ row row', topics[e.topic]? = some row ∧ lessCounts e row = .ok row' ∧
      row'.lessVotes e = .recount e.topic es row.payout := by
  obtain ⟨row, hrow⟩ := h.exists_row List.mem_cons_self
  have hr := h.row_eq e.topic row hrow
  rw [TopicTotals.recount_cons_self] at hr
  have hless := lessCounts_plus e (.recount e.topic es row.payout)
  rw [← hr] at hless
  exact ⟨row, _, hrow, hless, lessVotes_plus e _⟩

theorem TopicRows.getD_eq {topics : Std.ExtTreeMap Topic TopicTotals} (h : TopicRows topics es)
    (topic : Topic) :
    ∃ payout, topics[topic]?.getD { topic } = TopicTotals.recount topic es payout := by
  cases hr : topics[topic]? with
  | none =>
    have hm : topic ∉ topics := by simp [Std.ExtTreeMap.mem_iff_isSome_getElem?, hr]
    simp only [h.mem_iff, not_exists, not_and] at hm
    exact ⟨0, (TopicTotals.recount_of_not_mem hm 0).symm⟩
  | some row => exact ⟨row.payout, h.row_eq topic row hr⟩

theorem yields_add_topicRows (h : TopicRows t.topics es) (e : Entry) :
    Update.Yields (add e) t
      (fun _ u => TopicRows u.topics (e :: es) ∧ u.authors = t.authors ∧
        u.languages = t.languages) failed := by
  refine (yields_add e).imp ?_
  rintro _ _ rfl
  obtain ⟨payout, hp⟩ := h.getD_eq e.topic
  refine ⟨?_, rfl, rfl⟩
  refine h.insert TopicTotals.recount_local ⟨e, by simp, rfl⟩ ?_
    fun a ha => (filter_cons_of_key_ne ha es).symm
  rw [topic?, hp, ← TopicTotals.recount_cons_self]
  rfl

theorem TopicRows.subtract_ne_fault (h : TopicRows t.topics (e :: es)) {f : Fault} :
    ¬ (t.topic? e.topic = none ∧ f = .totalsMissing e.topic ∨
      ∃ row, t.topic? e.topic = some row ∧ lessCounts e row = .error f) := by
  obtain ⟨row, row', hrow, hless, -⟩ := h.lessCounts_head
  rintro (⟨hr, -⟩ | ⟨r, hr, hf⟩)
  · simp [topic?, hrow] at hr
  · obtain rfl := Option.some.inj (hrow.symm.trans hr)
    simp [hless] at hf

theorem AuthorRows.replace_head {authors : Std.ExtTreeMap Authorship AuthorTotals} {new : Entry}
    (h : AuthorRows authors (e :: es)) (hnew : new.authorship = e.authorship) :
    AuthorRows authors (new :: es) where
  mem_iff key := by simp [h.mem_iff, hnew]
  row_eq key row hr := by
    refine (h.row_eq key row hr).trans ?_
    simp [AuthorTotals.recount, List.countP_cons, hnew]

theorem LanguageNames.replace_head {languages : Std.ExtTreeSet String} {new : Entry}
    (h : LanguageNames languages (e :: es)) (hnew : new.topic = e.topic) :
    LanguageNames languages (new :: es) :=
  fun name => by simp [h name, hnew]

theorem LanguageNames.register (h : LanguageNames t.languages es)
    (hk : e.topic.kind = .language) :
    LanguageNames (t.registerLanguage e.topic.name).languages (e :: es) := by
  have ht : e.topic = .language e.topic.name := by rw [Topic.language, ← hk]
  intro name
  simp only [registerLanguage, Std.ExtTreeSet.mem_insert, Std.compare_eq_iff_eq, h name,
    List.mem_cons, exists_eq_or_imp]
  refine or_congr_left ⟨fun hn => hn ▸ ht, fun hn => ?_⟩
  rw [hn]
  rfl

theorem LanguageNames.cons_tag {languages : Std.ExtTreeSet String} (h : LanguageNames languages es)
    (hk : e.topic.kind ≠ .language) : LanguageNames languages (e :: es) := by
  intro name
  have hne : e.topic ≠ .language name := fun ht => hk (by rw [ht]; rfl)
  simp [h name, hne]

theorem LanguageNames.tail {languages : Std.ExtTreeSet String}
    (h : LanguageNames languages (e :: es)) (hex : ∃ a ∈ es, a.topic = e.topic) :
    LanguageNames languages es := by
  intro name
  obtain ⟨a, ha, hat⟩ := hex
  refine (h name).trans ⟨?_, fun ⟨b, hb, hbt⟩ => ⟨b, by simp [hb], hbt⟩⟩
  intro hh
  obtain ⟨b, hb, hbt⟩ := hh
  rcases List.mem_cons.mp hb with rfl | hb
  · exact ⟨a, ha, hat.trans hbt⟩
  · exact ⟨b, hb, hbt⟩

theorem LanguageNames.dropTopic (h : LanguageNames t.languages (e :: es))
    (hnone : ∀ a ∈ es, a.topic ≠ e.topic) : LanguageNames (t.dropTopic e.topic).languages es := by
  intro name
  simp only [Totals.dropTopic]
  by_cases hk : e.topic = .language name
  · have hno : ∀ a ∈ es, a.topic ≠ .language name := fun a ha => hk ▸ hnone a ha
    simp only [hk, Topic.language, if_true, Std.ExtTreeSet.mem_erase, Std.compare_eq_iff_eq, ne_eq,
      not_true_eq_false, false_and, false_iff, not_exists, not_and]
    exact hno
  · have hn : e.topic.kind = .language → e.topic.name ≠ name := by
      rintro hkind rfl
      exact hk (by rw [Topic.language, ← hkind])
    have hln := h name
    simp only [List.mem_cons, exists_eq_or_imp, hk, false_or] at hln
    rw [← hln]
    split
    · rename_i hkind
      simp [hn hkind]
    · rfl

theorem yields_remove_rows (h : TopicRows t.topics (e :: es))
    (hl : LanguageNames t.languages (e :: es)) :
    Update.Yields (remove e) t
      (fun _ u => TopicRows u.topics es ∧ LanguageNames u.languages es ∧ u.authors = t.authors)
      fun _ _ => False := by
  obtain ⟨row, row', hrow, hless, hleft⟩ := h.lessCounts_head
  refine (yields_remove e).mono ?_ fun f u hf => h.subtract_ne_fault hf.2
  intro gone u hh
  obtain ⟨r, r', hr, hr', rfl, rfl⟩ := hh
  obtain rfl := Option.some.inj (hrow.symm.trans hr)
  obtain rfl := Except.ok.inj (hless.symm.trans hr')
  have hother (a : Topic) (ha : e.topic ≠ a) := filter_cons_of_key_ne ha es
  rw [hleft]
  cases hv : (TopicTotals.recount e.topic es row.payout).isVacant with
  | true =>
    have hnone := TopicTotals.recount_isVacant_iff.mp hv
    exact ⟨h.erase TopicTotals.recount_local hnone hother, hl.dropTopic hnone, rfl⟩
  | false =>
    have hex : ∃ a ∈ es, a.topic = e.topic := by
      by_contra hh
      have hvacant : (TopicTotals.recount e.topic es row.payout).isVacant = true :=
        TopicTotals.recount_isVacant_iff.mpr fun a ha hat => hh ⟨a, ha, hat⟩
      simp [hv] at hvacant
    exact ⟨h.insert TopicTotals.recount_local hex rfl hother, hl.tail hex, rfl⟩

theorem yields_replace_topicRows {new : Entry} (h : TopicRows t.topics (e :: es))
    (htopic : new.topic = e.topic) :
    Update.Yields (replace e new) t
      (fun _ u => TopicRows u.topics (new :: es) ∧ u.authors = t.authors ∧
        u.languages = t.languages)
      fun _ _ => False := by
  obtain ⟨row, row', hrow, hless, hleft⟩ := h.lessCounts_head
  refine (yields_replace htopic).mono ?_ fun f u hf => h.subtract_ne_fault hf.2
  intro _ _ hh
  obtain ⟨r, r', hr, hr', rfl⟩ := hh
  obtain rfl := Option.some.inj (hrow.symm.trans hr)
  obtain rfl := Except.ok.inj (hless.symm.trans hr')
  refine ⟨?_, rfl, rfl⟩
  refine h.insert TopicTotals.recount_local ⟨new, by simp, htopic⟩ ?_ fun a ha => ?_
  · rw [hleft, ← htopic, ← TopicTotals.recount_cons_self]
    rfl
  · rw [filter_cons_of_key_ne ha, filter_cons_of_key_ne (htopic ▸ ha)]

theorem yields_addPost_rows (h : AuthorRows t.authors es) (e : Entry) :
    Update.Yields (addPost e.author e.topic) t
      (fun _ u => u.topics = t.topics ∧ AuthorRows u.authors (e :: es) ∧
        u.languages = t.languages) failed := by
  refine (yields_addPost e.author e.topic).imp ?_
  rintro _ _ rfl
  refine ⟨rfl, ?_, rfl⟩
  refine h.insert AuthorTotals.recount_local ⟨e, by simp, rfl⟩ ?_
    fun a ha => (filter_cons_of_key_ne ha es).symm
  change _ = AuthorTotals.recount e.authorship (e :: es) _
  cases hr : t.author? e.author e.topic with
  | none =>
    have hc : es.countP (fun a => a.authorship = e.authorship) = 0 := by
      rw [List.countP_eq_zero]
      intro a ha hae
      obtain ⟨row, hrow⟩ := h.exists_row ha
      rw [of_decide_eq_true hae, show t.authors[e.authorship]? = none from hr] at hrow
      cases hrow
    simp only [AuthorTotals.recount, List.countP_cons, hc]
    simp [Entry.authorship]
  | some row =>
    have hrow := h.row_eq e.authorship row hr
    obtain ⟨author, topic, posts, rewards⟩ := row
    simp only [AuthorTotals.recount, AuthorTotals.mk.injEq] at hrow
    obtain ⟨rfl, rfl, rfl, -⟩ := hrow
    simp [AuthorTotals.recount]

theorem yields_removePost_rows (h : AuthorRows t.authors (e :: es)) :
    Update.Yields (removePost e.author e.topic) t
      (fun _ u => u.topics = t.topics ∧ AuthorRows u.authors es ∧ u.languages = t.languages)
      fun _ _ => False := by
  obtain ⟨row, hrow⟩ := h.exists_row List.mem_cons_self
  have hother (a : Authorship) (ha : e.authorship ≠ a) := filter_cons_of_key_ne ha es
  refine (yields_removePost e.author e.topic).mono ?_ ?_
  · intro _ _ hh
    obtain ⟨r, hr, rfl⟩ := hh
    obtain rfl := Option.some.inj (hrow.symm.trans hr)
    have hposts : row.posts = es.countP (fun a => a.authorship = e.authorship) + 1 := by
      simpa [AuthorTotals.recount] using congrArg AuthorTotals.posts (h.row_eq e.authorship row hrow)
    split
    · have hno : ∀ a ∈ es, a.authorship ≠ e.authorship := by
        have hc : es.countP (fun a => a.authorship = e.authorship) = 0 := by omega
        simpa [List.countP_eq_zero] using hc
      exact ⟨rfl, h.erase AuthorTotals.recount_local hno hother, rfl⟩
    · have hex : ∃ a ∈ es, a.authorship = e.authorship := by
        have hc : 0 < es.countP (fun a => a.authorship = e.authorship) := by omega
        simpa [List.countP_pos_iff] using hc
      refine ⟨rfl, h.insert AuthorTotals.recount_local hex ?_ hother, rfl⟩
      have hauthor := congrArg AuthorTotals.author (h.row_eq e.authorship row hrow)
      have htopic := congrArg AuthorTotals.topic (h.row_eq e.authorship row hrow)
      simp [AuthorTotals.recount, hauthor, htopic, hposts]
      exact ⟨rfl, rfl, rfl⟩
  · intro f u hh
    obtain ⟨-, hr, -⟩ := hh
    simp [author?, show t.authors[Authorship.mk e.author e.topic]? = some row from hrow] at hr

theorem yields_addPayout_rows (h : TopicRows t.topics es) (topic : Topic) (amount : Nat) :
    Update.Yields (addPayout topic amount) t
      (fun _ u => TopicRows u.topics es ∧ u.authors = t.authors ∧ u.languages = t.languages)
      failed := by
  simp only [addPayout, Update.yields_bind, Update.yields_get]
  cases hr : t.topic? topic with
  | none => exact ⟨h, rfl, rfl⟩
  | some row =>
    simp only [Update.yields_bind, Update.yields_sum, Update.yields_modify, Update.yields_pure]
    intro _
    have hrow := h.row_eq topic row hr
    refine ⟨h.rewrite TopicTotals.recount_local hr ?_, rfl, rfl⟩
    rw [hrow]
    rfl

theorem yields_addRewards_rows (h : AuthorRows t.authors es) (author : String) (topic : Topic)
    (amount : Nat) :
    Update.Yields (addRewards author topic amount) t
      (fun _ u => u.topics = t.topics ∧ AuthorRows u.authors es ∧ u.languages = t.languages)
      failed := by
  simp only [addRewards, Update.yields_bind, Update.yields_get]
  cases hr : t.author? author topic with
  | none => exact ⟨rfl, h, rfl⟩
  | some row =>
    simp only [Update.yields_bind, Update.yields_sum, Update.yields_modify, Update.yields_pure]
    intro _
    have hrow := h.row_eq ⟨author, topic⟩ row hr
    refine ⟨rfl, h.rewrite AuthorTotals.recount_local hr ?_, rfl⟩
    rw [hrow]
    rfl

end Totals

end TagCatalog
