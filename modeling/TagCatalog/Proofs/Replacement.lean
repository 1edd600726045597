import TagCatalog.Proofs.VoteSums

/-! Swapping what an entry contributes, against taking it off and adding the new one. The row that
stays in between keeps its payout and its language; the counts come out the same. -/

namespace TagCatalog

open Update

/-- The sums that counting an entry in a row forms are within their fields. -/
def TopicTotals.HasRoom (e : Entry) (row : TopicTotals) : Prop :=
  (if e.isRoot then
    row.childrenRshares2 + e.childrenRshares2 < 2 ^ 128 ∧ row.topPosts + 1 < 2 ^ 32
  else row.comments + 1 < 2 ^ 32) ∧
  -(2 ^ (64 - 1)) ≤ row.netVotes + e.netVotes.toInt ∧ row.netVotes + e.netVotes.toInt < 2 ^ (64 - 1)

namespace Totals

variable {t : Totals} {es : List Entry} {old new : Entry}

theorem noOverflow_add_iff (e : Entry) :
    NoOverflow (add e) t ↔ ((t.topic? e.topic).getD { topic := e.topic }).HasRoom e := by
  have hcount (row : TopicTotals) (u : Totals) :
      NoOverflow (do
        let row ← if e.isRoot then countPost e row else countComment e row
        let netVotes ← Update.fits 64 (row.netVotes + e.netVotes.toInt)
        modify (·.putTopic e.topic { row with netVotes })) u ↔ row.HasRoom e := by
    by_cases hroot : e.isRoot = true
    · simp only [hroot, if_true, countPost, TopicTotals.HasRoom, noOverflow_bind, noOverflow_sum,
        noOverflow_modify, noOverflow_pure, noOverflow_fits, yields_bind, yields_sum,
        yields_modify, yields_pure, yields_fits, and_true, true_and]
      tauto
    · simp only [hroot, Bool.false_eq_true, if_false, countComment, TopicTotals.HasRoom,
        noOverflow_bind, noOverflow_sum, noOverflow_modify, noOverflow_pure, noOverflow_fits,
        yields_bind, yields_sum, yields_modify, yields_pure, yields_fits, and_true]
      tauto
  rw [add, noOverflow_bind]
  simp only [hcount, ensure, noOverflow_bind, noOverflow_get, yields_bind, yields_get, true_and]
  cases hrow : t.topic? e.topic with
  | none => simp
  | some row => simp

theorem add_eq_ok {e : Entry} (h : NoOverflow (add e) t) : add e t =
    .ok ⟨⟩ (t.putTopic e.topic (((t.topic? e.topic).getD { topic := e.topic }).plus e)) := by
  obtain ⟨_, u, hu, rfl⟩ := (yields_add e).exists_ok h
  exact hu

theorem subtract_eq_ok {e : Entry} {row row' : TopicTotals} (hless : lessCounts e row = .ok row')
    (h : NoOverflow (subtract e row) t) :
    subtract e row t = .ok (row'.lessVotes e) (t.putTopic e.topic (row'.lessVotes e)) := by
  have hfaultless : Yields (subtract e row) t
      (fun last u => last = row'.lessVotes e ∧ u = t.putTopic e.topic last) fun _ _ => False := by
    refine (yields_subtract e row).mono ?_ ?_
    · intro last u hh
      obtain ⟨other, hother, rfl, rfl⟩ := hh
      obtain rfl := Except.ok.inj (hless.symm.trans hother)
      exact ⟨rfl, rfl⟩
    · intro f u hh
      simp [hless] at hh
  obtain ⟨_, _, hu, rfl, rfl⟩ := hfaultless.exists_ok h
  exact hu

theorem noOverflow_replace_iff {row : TopicTotals} (hrow : t.topic? old.topic = some row) :
    NoOverflow (replace old new) t ↔ NoOverflow (subtract old row) t ∧
      Yields (subtract old row) t (fun _ u => NoOverflow (add new) u) fun _ _ => True := by
  simp [replace, hrow]

theorem replace_eq_add {row rest : TopicTotals} {u : Totals}
    (hrow : t.topic? old.topic = some row) (hsub : subtract old row t = .ok rest u) :
    replace old new t = add new u := by
  simp only [replace, bind, EStateM.bind, get, getThe, MonadStateOf.get, EStateM.get, hrow,
    Update.require, pure, EStateM.pure, hsub]

theorem remove_eq_ok {row rest : TopicTotals} {u : Totals}
    (hrow : t.topic? old.topic = some row) (hsub : subtract old row t = .ok rest u) :
    remove old t = .ok rest.isVacant (if rest.isVacant then u.dropTopic old.topic else u) := by
  simp only [remove, bind, EStateM.bind, get, getThe, MonadStateOf.get, EStateM.get, hrow,
    Update.require, pure, EStateM.pure, hsub]
  cases rest.isVacant with
  | true => rfl
  | false => rfl

theorem remove_add_eq {gone : Bool} {u : Totals} (hremove : remove old t = .ok gone u) :
    (do let _ ← remove old; add new : Update Totals Unit) t = add new u := by
  simp only [bind, EStateM.bind, hremove]

/-- Where rows are the sums of entries, taking an entry off and adding another under its topic
leaves the sums that swapping the two leaves. Only a row without other entries is made anew. -/
theorem replace_eq_remove_add (h : TopicRows t.topics es) (hold : old ∈ es)
    (htopic : new.topic = old.topic) (hfit : NoOverflow (replace old new) t) :
    ∃ u v, replace old new t = .ok ⟨⟩ u ∧
      (do let _ ← remove old; add new : Update Totals Unit) t = .ok ⟨⟩ v ∧
      (∀ topic, (u.topic? topic).map ({ · with payout := 0 }) =
        (v.topic? topic).map ({ · with payout := 0 })) ∧
      u.authors = t.authors ∧ v.authors = t.authors ∧
      ((∃ e ∈ es.erase old, e.topic = old.topic) → v = u) ∧
      ((∀ e ∈ es.erase old, e.topic ≠ old.topic) →
        (∀ topic ≠ old.topic, v.topic? topic = u.topic? topic) ∧
        (u.topic? old.topic).map (·.payout) = (t.topic? old.topic).map (·.payout) ∧
        u.languages = t.languages ∧
        (v.topic? old.topic).map (·.payout) = some 0 ∧
        ∀ name, name ∈ v.languages ↔ name ∈ t.languages ∧ old.topic ≠ .language name) := by
  have hrows : TopicRows t.topics (old :: es.erase old) :=
    h.perm TopicTotals.recount_local (List.perm_cons_erase hold)
  obtain ⟨row, row', hrow, hless, hleft⟩ := hrows.lessCounts_head
  obtain ⟨hsub, hadd⟩ := (noOverflow_replace_iff hrow).mp hfit
  have hsub := subtract_eq_ok hless hsub
  have hadd := hadd.of_ok hsub
  rw [hleft] at hsub hadd
  have hreplace := (replace_eq_add hrow hsub).trans (add_eq_ok hadd)
  have hremove := remove_eq_ok hrow hsub
  rw [dropTopic_putTopic] at hremove
  -- A row that has no other entry is vacant in between, and made anew without its payout.
  by_cases hsole : ∀ e ∈ es.erase old, e.topic ≠ old.topic
  · have hvacant : (TopicTotals.recount old.topic (es.erase old) row.payout).isVacant = true :=
      TopicTotals.recount_isVacant_iff.mpr hsole
    rw [if_pos hvacant] at hremove
    rw [TopicTotals.recount_of_not_mem hsole] at hreplace hadd
    have hgone : (t.dropTopic old.topic).topic? new.topic = none := by
      simp [topic?_dropTopic, htopic]
    have hanew : NoOverflow (add new) (t.dropTopic old.topic) := by
      rw [noOverflow_add_iff, topic?_putTopic, if_pos htopic.symm] at hadd
      rw [noOverflow_add_iff, hgone]
      exact hadd
    have hfresh := (remove_add_eq hremove).trans (add_eq_ok hanew)
    rw [hgone, htopic] at hfresh
    rw [topic?_putTopic, if_pos htopic.symm, htopic, putTopic_putTopic] at hreplace
    refine ⟨_, _, hreplace, hfresh, ?_, rfl, rfl, ?_, fun _ => ⟨?_, ?_, rfl, ?_, ?_⟩⟩
    · intro topic
      by_cases heq : old.topic = topic
      · simp [topic?_putTopic, heq, TopicTotals.plus_with_payout new { topic } row.payout]
      · simp [topic?_putTopic, topic?_dropTopic, heq]
    · intro hother
      obtain ⟨e, he, hetopic⟩ := hother
      exact absurd hetopic (hsole e he)
    · intro topic hne
      simp [topic?_putTopic, topic?_dropTopic, hne.symm]
    · have hpaid : (t.topic? old.topic).map (·.payout) = some row.payout :=
        congrArg (Option.map (·.payout)) hrow
      simp [topic?_putTopic, hpaid]
    · simp [topic?_putTopic]
    · exact fun name => mem_languages_dropTopic t old.topic name
  · have hvacant : ¬(TopicTotals.recount old.topic (es.erase old) row.payout).isVacant = true :=
      TopicTotals.recount_isVacant_iff.not.mpr hsole
    rw [if_neg hvacant] at hremove
    refine ⟨_, _, hreplace, (remove_add_eq hremove).trans (add_eq_ok hadd), fun _ => rfl, rfl, rfl,
      fun _ => rfl, fun h => absurd h hsole⟩

/-- The one post in English. -/
def englishPost : Entry where
  topic := .language "en"
  content := 1
  author := "alice"
  created := .epoch
  updated := .epoch
  active := .epoch
  netVotes := 3
  childrenRshares2 := 5
  hot := ⟨0⟩
  trending := ⟨0⟩

def englishTotals : Totals :=
  let row : TopicTotals :=
    { topic := .language "en", topPosts := 1, netVotes := 3, childrenRshares2 := 5, payout := 7 }
  (Totals.empty.putTopic (.language "en") row).registerLanguage "en"

theorem topicRows_englishTotals : TopicRows englishTotals.topics [englishPost] :=
  Balanced.empty.topics.insert TopicTotals.recount_local ⟨englishPost, by simp, rfl⟩ rfl
    fun _ hother => (filter_cons_of_key_ne (e := englishPost) hother []).symm

def secondPost : Entry :=
  { englishPost with content := 3, author := "bob", netVotes := 2, childrenRshares2 := 4 }

def sharedTotals : Totals :=
  let row : TopicTotals :=
    { topic := .language "en", topPosts := 2, netVotes := 5, childrenRshares2 := 9, payout := 7 }
  englishTotals.putTopic (.language "en") row

theorem topicRows_sharedTotals : TopicRows sharedTotals.topics [secondPost, englishPost] :=
  topicRows_englishTotals.insert TopicTotals.recount_local ⟨secondPost, by simp, rfl⟩ rfl
    fun _ hother => (filter_cons_of_key_ne (e := secondPost) hother [englishPost]).symm

/-- A reply takes the place of a post, which is the only one in English or one of two. -/
theorem replace_eq_remove_add_english :
    let reply : Entry := { englishPost with content := 2, parent := some 1, netVotes := -4 }
    let removeAdd : Update Totals Unit := do let _ ← remove englishPost; add reply
    (∃ u v, replace englishPost reply englishTotals = .ok ⟨⟩ u ∧ removeAdd englishTotals = .ok ⟨⟩ v ∧
      (u.topic? (.language "en")).map (·.payout) = some 7 ∧ "en" ∈ u.languages ∧
      (v.topic? (.language "en")).map (·.payout) = some 0 ∧ "en" ∉ v.languages) ∧
    ∃ u, replace englishPost reply sharedTotals = .ok ⟨⟩ u ∧ removeAdd sharedTotals = .ok ⟨⟩ u ∧
      u.topic? (.language "en") = some ⟨.language "en", 1, 1, -2, 4, 7⟩ := by
  intro reply removeAdd
  have htopic : reply.topic = englishPost.topic := rfl
  constructor
  · have hfit : NoOverflow (replace englishPost reply) englishTotals :=
      Update.ne_overflow_of_returns (by decide +kernel)
    obtain ⟨u, v, hu, hv, -, -, -, -, hsole⟩ :=
      replace_eq_remove_add topicRows_englishTotals List.mem_cons_self htopic hfit
    obtain ⟨-, hpaid, hlanguages, hunpaid, hdropped⟩ := hsole (by decide)
    refine ⟨u, v, hu, hv, hpaid.trans (by decide +kernel), ?_, hunpaid, ?_⟩
    · rw [hlanguages]
      decide +kernel
    · simp [hdropped, englishPost]
  · have hfit : NoOverflow (replace englishPost reply) sharedTotals :=
      Update.ne_overflow_of_returns (by decide +kernel)
    obtain ⟨u, v, hu, hv, -, -, -, hother, -⟩ :=
      replace_eq_remove_add topicRows_sharedTotals (by decide) htopic hfit
    obtain rfl := hother (by decide)
    have hrow : (Update.after? (replace englishPost reply) sharedTotals).map
        (·.topic? (.language "en")) = some (some ⟨.language "en", 1, 1, -2, 4, 7⟩) := by
      decide +kernel
    rw [Update.after?, hu] at hrow
    exact ⟨v, hu, hv, Option.some.inj hrow⟩

end Totals

end TagCatalog
