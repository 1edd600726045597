import TagCatalog.Proofs.Changes
import TagCatalog.Proofs.EntryEdits
import TagCatalog.Proofs.Replacement

/-! The sums that a change forms on its way, for which field each of them is, and what they are
where the totals are those of the entries. -/

namespace TagCatalog

open Update

/-- The fields of the totals that sums are formed for. -/
inductive Aggregate
  | topPosts
  | comments
  | netVotes
  | childrenRshares2
  | payout
  | posts
  | rewards
  deriving DecidableEq

def Aggregate.Holds (n : Int) : Aggregate → Prop
  | .topPosts | .comments | .posts => n < 2 ^ 32
  | .netVotes => -(2 ^ 63) ≤ n ∧ n < 2 ^ 63
  | .childrenRshares2 => n < 2 ^ 128
  | .payout | .rewards => n < 2 ^ 64

structure Formed where
  aggregate : Aggregate
  topic : Topic
  value : Int

def Formed.Fits (x : Formed) : Prop := x.aggregate.Holds x.value

/-- What the root entries under a topic weigh together. -/
def rootWeight (topic : Topic) (es : List Entry) : Nat :=
  ((es.filter fun e => e.topic = topic && e.isRoot).map (·.childrenRshares2)).sum

/-- Counts and votes are what their field can hold, and a weight is that of the root entries. -/
def Formed.Sure (es : List Entry) (x : Formed) : Prop :=
  (x.aggregate ∈ [.topPosts, .comments, .netVotes, .posts] → x.Fits) ∧
    (x.aggregate = .childrenRshares2 → x.value = rootWeight x.topic es)

theorem Formed.Fits.sure {x : Formed} {es : List Entry} (h : x.Fits)
    (hne : x.aggregate ≠ .childrenRshares2) : x.Sure es :=
  ⟨fun _ => h, fun hweight => absurd hweight hne⟩

theorem Formed.Sure.perm {x : Formed} {es es' : List Entry} (h : x.Sure es) (hp : es.Perm es') :
    x.Sure es' := by
  obtain ⟨hfits, hweight⟩ := h
  refine ⟨hfits, fun hx => (hweight hx).trans ?_⟩
  rw [rootWeight, rootWeight, ((hp.filter _).map _).sum_eq]

namespace EntryTable

variable {t : EntryTable}

theorem noOverflow_insert (e : Entry) : NoOverflow (insert e) t := by
  intro u
  rw [insert_eq]
  split <;> simp

theorem noOverflow_replace (e : Entry) : NoOverflow (replace e) t := by
  intro u
  rw [replace_eq]
  split
  · simp
  · split <;> simp

end EntryTable

namespace TopicTotals

def adding (e : Entry) (row : TopicTotals) : List Formed :=
  (if e.isRoot then
    [⟨.childrenRshares2, e.topic, row.childrenRshares2 + e.childrenRshares2⟩,
      ⟨.topPosts, e.topic, row.topPosts + 1⟩]
  else [⟨.comments, e.topic, row.comments + 1⟩]) ++
    [⟨.netVotes, e.topic, row.netVotes + e.netVotes.toInt⟩]

/-- Taking an entry off a row forms a sum of votes; the counters only go down. -/
def takingOff (e : Entry) (row : TopicTotals) : List Formed :=
  [⟨.netVotes, e.topic, row.netVotes - e.netVotes.toInt⟩]

def less (e : Entry) (row : TopicTotals) : TopicTotals :=
  lessVotes e { row with
    topPosts := row.topPosts - Counter.topPosts.share e
    comments := row.comments - Counter.comments.share e
    childrenRshares2 := row.childrenRshares2 - Counter.childrenRshares2.share e }

theorem hasRoom_iff {e : Entry} {row : TopicTotals} :
    row.HasRoom e ↔ ∀ x ∈ row.adding e, x.Fits := by
  unfold HasRoom adding
  split
  · simp only [List.cons_append, List.nil_append, List.mem_cons, List.not_mem_nil, or_false,
      forall_eq_or_imp, forall_eq, Formed.Fits, Aggregate.Holds]
    omega
  · simp only [List.cons_append, List.nil_append, List.mem_cons, List.not_mem_nil, or_false,
      forall_eq_or_imp, forall_eq, Formed.Fits, Aggregate.Holds]
    omega

theorem less_eq {e : Entry} {row row' : TopicTotals} (h : Totals.lessCounts e row = .ok row') :
    row.less e = row'.lessVotes e := by
  rw [Totals.lessCounts_eq] at h
  split at h
  · cases h
  · rw [less, ← Except.ok.inj h]

variable {e : Entry} {es : List Entry} {payout : Nat} {x : Formed}

theorem recount_adding_sure (hlength : es.length + 1 < 2 ^ 32)
    (hx : x ∈ (recount e.topic es payout).adding e) : x.Sure (e :: es) := by
  have hposts : (recount e.topic es payout).topPosts ≤ es.length := List.countP_le_length
  have hcomments : (recount e.topic es payout).comments ≤ es.length := List.countP_le_length
  rcases List.mem_append.mp hx with hcount | hvote
  · by_cases hroot : e.isRoot = true
    · rw [if_pos hroot, List.mem_pair] at hcount
      rcases hcount with rfl | rfl
      · refine ⟨by simp, fun _ => ?_⟩
        simp [rootWeight, recount, hroot, Int.add_comm]
      · refine Formed.Fits.sure ?_ (by simp)
        simp only [Formed.Fits, Aggregate.Holds]
        omega
    · rw [if_neg hroot, List.mem_singleton] at hcount
      obtain rfl := hcount
      refine Formed.Fits.sure ?_ (by simp)
      simp only [Formed.Fits, Aggregate.Holds]
      omega
  · obtain rfl := List.mem_singleton.mp hvote
    have hvotes := natAbs_recount_netVotes_le e.topic es payout
    have hown := e.netVotes_natAbs_le
    refine Formed.Fits.sure ?_ (by simp)
    simp only [Formed.Fits, Aggregate.Holds]
    omega

theorem recount_takingOff_fits (hlength : es.length < 2 ^ 32) :
    ∀ x ∈ (recount e.topic (e :: es) payout).takingOff e, x.Fits := by
  have hvotes := natAbs_recount_netVotes_le e.topic es payout
  intro x hx
  obtain rfl := List.mem_singleton.mp hx
  rw [Formed.Fits, recount_cons_self, plus_netVotes, Int.add_sub_cancel]
  simp only [Aggregate.Holds]
  omega

theorem takingOff_sure {row : TopicTotals} (h : ∀ x ∈ row.takingOff e, x.Fits) (es : List Entry) :
    ∀ x ∈ row.takingOff e, x.Sure es := by
  intro x hx
  refine (h x hx).sure ?_
  simp [List.mem_singleton.mp hx]

end TopicTotals

namespace Totals

variable {t : Totals}

/-- The row that an entry under a topic is counted in. -/
def row (topic : Topic) (t : Totals) : TopicTotals := (t.topic? topic).getD { topic }

def posting (author : String) (topic : Topic) (t : Totals) : List Formed :=
  (t.author? author topic).elim [] fun row => [⟨.posts, topic, row.posts + 1⟩]

def paying (topic : Topic) (amount : Nat) (t : Totals) : List Formed :=
  (t.topic? topic).elim [] fun row => [⟨.payout, topic, row.payout + amount⟩]

def awarding (author : String) (topic : Topic) (amount : Nat) (t : Totals) : List Formed :=
  (t.author? author topic).elim [] fun row => [⟨.rewards, topic, row.rewards + amount⟩]

theorem noOverflow_add_fits (e : Entry) :
    NoOverflow (add e) t ↔ ∀ x ∈ (t.row e.topic).adding e, x.Fits :=
  (noOverflow_add_iff e).trans TopicTotals.hasRoom_iff

theorem noOverflow_subtract_fits {e : Entry} {row row' : TopicTotals}
    (hless : lessCounts e row = .ok row') :
    NoOverflow (subtract e row) t ↔ ∀ x ∈ row.takingOff e, x.Fits := by
  simp [noOverflow_subtract hless, TopicTotals.takingOff, Formed.Fits, Aggregate.Holds]

theorem noOverflow_addPost (author : String) (topic : Topic) :
    NoOverflow (addPost author topic) t ↔ ∀ x ∈ t.posting author topic, x.Fits := by
  unfold addPost posting
  simp only [noOverflow_bind, noOverflow_get, yields_get, true_and]
  cases t.author? author topic with
  | none => simp
  | some row =>
    simp only [noOverflow_bind, noOverflow_sum, noOverflow_modify, yields_sum, implies_true,
      and_true, Option.elim_some, List.mem_singleton, forall_eq, Formed.Fits, Aggregate.Holds]
    omega

theorem aggregate_of_paying {topic : Topic} {amount : Nat} {x : Formed}
    (hx : x ∈ t.paying topic amount) : x.aggregate = .payout := by
  unfold paying at hx
  cases hrow : t.topic? topic with
  | none => simp [hrow] at hx
  | some row =>
    rw [hrow, Option.elim_some] at hx
    rw [List.mem_singleton.mp hx]

theorem aggregate_of_awarding {author : String} {topic : Topic} {amount : Nat} {x : Formed}
    (hx : x ∈ t.awarding author topic amount) : x.aggregate = .rewards := by
  unfold awarding at hx
  cases hrow : t.author? author topic with
  | none => simp [hrow] at hx
  | some row =>
    rw [hrow, Option.elim_some] at hx
    rw [List.mem_singleton.mp hx]

theorem noOverflow_addPayout (topic : Topic) (amount : Nat) :
    NoOverflow (addPayout topic amount) t ↔ ∀ x ∈ t.paying topic amount, x.Fits := by
  unfold addPayout paying
  simp only [noOverflow_bind, noOverflow_get, yields_get, true_and]
  cases t.topic? topic with
  | none => simp
  | some row =>
    simp only [noOverflow_bind, noOverflow_sum, noOverflow_modify, noOverflow_pure, yields_sum,
      yields_modify, implies_true, and_true, Option.elim_some, List.mem_singleton, forall_eq,
      Formed.Fits, Aggregate.Holds]
    omega

theorem noOverflow_addRewards (author : String) (topic : Topic) (amount : Nat) :
    NoOverflow (addRewards author topic amount) t ↔
      ∀ x ∈ t.awarding author topic amount, x.Fits := by
  unfold addRewards awarding
  simp only [noOverflow_bind, noOverflow_get, yields_get, true_and]
  cases t.author? author topic with
  | none => simp
  | some row =>
    simp only [noOverflow_bind, noOverflow_sum, noOverflow_modify, noOverflow_pure, yields_sum,
      yields_modify, implies_true, and_true, Option.elim_some, List.mem_singleton, forall_eq,
      Formed.Fits, Aggregate.Holds]
    omega

end Totals

namespace Catalog

/-- The sums that a change forms, in order. -/
def Change.sums (s : Settings) (c : Catalog) : Change → List Formed
  | .file e => (c.totals.row e.topic).adding e ++ c.totals.posting e.author e.topic
  | .refresh content id => (c.table.get? id).elim [] fun e =>
    (c.totals.row e.topic).takingOff e ++
      ((c.totals.row e.topic).less e).adding (e.refreshed s content)
  | .withdraw id => (c.table.get? id).elim [] fun e => (c.totals.row e.topic).takingOff e
  | .credit payout id => (c.table.get? id).elim [] fun e =>
    c.totals.paying e.topic payout ++ c.totals.awarding e.author e.topic payout

def Change.entries (s : Settings) (c : Catalog) : Change → List Entry
  | .file e => { e with id := c.table.nextId } :: c.table.toList
  | .refresh content id =>
    c.table.toList.map fun e => if e.id = id then e.refreshed s content else e
  | .withdraw id => c.table.toList.filter (·.id ≠ id)
  | .credit .. => c.table.toList

/-- A change that can be made: a filing is new, and other changes are of an entry that is there. -/
def Change.Due (c : Catalog) : Change → Prop
  | .file e => e.topic ≠ .language "" ∧ ∀ id a, c.table.get? id = some a → a.filing ≠ e.filing
  | .refresh _ id | .withdraw id | .credit _ id => ∃ e, c.table.get? id = some e

variable {s : Settings} {c : Catalog}

theorem id_ne_of_erased (h : c.Sound) {id : Nat} {a : Entry}
    (ha : a ∈ (c.table.entries.erase id).values) : a.id ≠ id := by
  obtain ⟨i, hi⟩ := mem_values.mp ha
  rw [getElem?_erase_eq] at hi
  split at hi
  · cases hi
  · rename_i hne
    rw [h.table.id_eq i a hi]
    exact Ne.symm hne

section

variable {id : Nat} {e : Entry}

theorem entries_refresh_perm (h : c.Sound) (content : Content) (he : c.table.get? id = some e) :
    ((Change.refresh content id).entries s c).Perm
      (e.refreshed s content :: (c.table.entries.erase id).values) := by
  have hperm := (values_perm_erase (m := c.table.entries) he).map fun a : Entry =>
    if a.id = id then a.refreshed s content else a
  have hrest : (c.table.entries.erase id).values.map
      (fun a : Entry => if a.id = id then a.refreshed s content else a) =
      (c.table.entries.erase id).values :=
    (List.map_congr_left fun a ha => if_neg (id_ne_of_erased h ha)).trans (List.map_id' _)
  rwa [List.map_cons, if_pos (h.table.id_eq id e he), hrest] at hperm

theorem entries_withdraw_perm (h : c.Sound) (he : c.table.get? id = some e) :
    ((Change.withdraw id).entries s c).Perm (c.table.entries.erase id).values := by
  have hperm := (values_perm_erase (m := c.table.entries) he).filter fun a : Entry => a.id ≠ id
  have hrest : (c.table.entries.erase id).values.filter (fun a : Entry => a.id ≠ id) =
      (c.table.entries.erase id).values :=
    List.filter_eq_self.mpr fun a ha => by simpa using id_ne_of_erased h ha
  rwa [List.filter_cons_of_neg (by simp [h.table.id_eq id e he]), hrest] at hperm

end

theorem Change.yields_run (h : c.Sound) {change : Change} (hdue : change.Due c) :
    Yields (change.run s) c
      (fun _ d => d.Sound ∧ d.table.toList.Perm (change.entries s c)) fun _ _ => False := by
  cases change with
  | file e =>
    obtain ⟨hname, hnew⟩ := hdue
    refine (yields_file h hname hnew).imp ?_
    intro _ d hh
    obtain ⟨hd, -, hentries⟩ := hh
    have hperm := values_insert_perm h.table.get?_nextId { e with id := c.table.nextId }
    rw [← hentries] at hperm
    exact ⟨hd, hperm⟩
  | refresh content id =>
    obtain ⟨e, he⟩ := hdue
    refine (yields_refreshEntry h s content he).imp ?_
    intro _ d hh
    obtain ⟨hd, -, hentries⟩ := hh
    have hperm := values_perm_erase (m := d.table.entries) (k := id) (v := e.refreshed s content)
      (by simp [hentries])
    rw [hentries, erase_insert, ← hentries] at hperm
    exact ⟨hd, hperm.trans (entries_refresh_perm h content he).symm⟩
  | withdraw id =>
    obtain ⟨e, he⟩ := hdue
    refine (yields_withdrawEntry h he).imp ?_
    intro _ d hh
    obtain ⟨hd, -, hentries⟩ := hh
    have hperm := (entries_withdraw_perm (s := s) h he).symm
    rw [← hentries] at hperm
    exact ⟨hd, hperm⟩
  | credit payout id =>
    refine (yields_credit h (Option.isSome_iff_exists.mpr hdue) payout).imp ?_
    intro _ d hh
    obtain ⟨hd, htable⟩ := hh
    exact ⟨hd, .of_eq (by rw [Change.entries, htable])⟩

/-- What filing does to the totals, once the entry has its place. -/
def count (e : Entry) : Update Catalog Unit := do
  onTotals (Totals.add e)
  onTotals (Totals.addPost e.author e.topic)
  if e.topic.kind = .language then
    onTotals (modify (·.registerLanguage e.topic.name))

theorem file_eq_count (h : c.Sound) {e : Entry}
    (hnew : ∀ id a, c.table.get? id = some a → a.filing ≠ e.filing) :
    ∃ u : EntryTable,
      u.entries = c.table.entries.insert c.table.nextId { e with id := c.table.nextId } ∧
      file e c = count { e with id := c.table.nextId } { c with table := u } := by
  obtain ⟨_, u, hu, rfl, -, -, hentries⟩ :=
    (EntryTable.yields_insert h.table hnew).exists_ok (EntryTable.noOverflow_insert e)
  have hinsert : onTable (EntryTable.insert e) c = .ok c.table.nextId { c with table := u } := by
    simp only [onTable, within, hu]
  have hread : requireEntry c.table.nextId { c with table := u } =
      .ok { e with id := c.table.nextId } { c with table := u } :=
    requireEntry_of_some (by simp [EntryTable.get?, hentries])
  exact ⟨u, hentries, (bind_of_ok hinsert).trans (bind_of_ok hread)⟩

theorem noOverflow_file (h : c.Sound) {e : Entry} (hdue : (Change.file e).Due c) :
    NoOverflow (file e) c ↔ ∀ x ∈ (Change.file e).sums s c, x.Fits := by
  obtain ⟨u, -, hfile⟩ := file_eq_count h hdue.2
  rw [NoOverflow, hfile, ← NoOverflow, count, noOverflow_bind, noOverflow_onTotals,
    Totals.noOverflow_add_fits, Change.sums, List.forall_mem_append]
  refine and_congr_right fun hadd => ?_
  have hadd := Totals.add_eq_ok ((Totals.noOverflow_add_fits _).mpr hadd)
  rw [yields_onTotals, yields_iff_of_ok hadd, noOverflow_bind, noOverflow_onTotals,
    Totals.noOverflow_addPost]
  refine and_iff_left (.of_forall (fun _ _ => ?_) fun _ _ => trivial)
  split <;> simp

theorem noOverflow_refreshEntry (h : c.Sound) (content : Content) {id : Nat} {e : Entry}
    (he : c.table.get? id = some e) : NoOverflow (refreshEntry s content id) c ↔
      ∀ x ∈ (Change.refresh content id).sums s c, x.Fits := by
  have htopics := (h.totals.perm (values_perm_erase (m := c.table.entries) he)).topics
  obtain ⟨row, row', hrow, hless, -⟩ := htopics.lessCounts_head
  have hown : c.totals.row e.topic = row := by
    rw [Totals.row, Totals.topic?, hrow, Option.getD_some]
  rw [refreshEntry, noOverflow_bind_of_ok (requireEntry_of_some he), noOverflow_bind,
    noOverflow_onTotals, Totals.noOverflow_replace_iff hrow, Totals.noOverflow_subtract_fits hless,
    Change.sums, he, Option.elim_some, hown, List.forall_mem_append]
  refine (and_iff_left ?_).trans (and_congr_right fun hsub => ?_)
  · refine .of_forall (fun _ _ => ?_) fun _ _ => trivial
    simp [EntryTable.noOverflow_replace]
  · have hfit : NoOverflow (Totals.subtract e row) c.totals :=
      (Totals.noOverflow_subtract_fits hless).mpr hsub
    have hput : (c.totals.putTopic e.topic (row'.lessVotes e)).row (e.refreshed s content).topic =
        row.less e := by
      simp [Totals.row, Totals.topic?_putTopic, Entry.refreshed, TopicTotals.less_eq hless]
    rw [yields_iff_of_ok (Totals.subtract_eq_ok hless hfit), Totals.noOverflow_add_fits, hput]

theorem noOverflow_credit (h : c.Sound) (payout : Nat) {id : Nat} {e : Entry}
    (he : c.table.get? id = some e) : NoOverflow (credit payout id) c ↔
      ∀ x ∈ (Change.credit payout id).sums s c, x.Fits := by
  rw [credit, noOverflow_bind_of_ok (requireEntry_of_some he), noOverflow_bind,
    noOverflow_onTotals, Totals.noOverflow_addPayout, Change.sums, he, Option.elim_some,
    List.forall_mem_append]
  refine and_congr_right fun hpaid => ?_
  obtain ⟨_, u, hu, -, hauthors, -⟩ :=
    (Totals.yields_addPayout_rows h.totals.topics e.topic payout).exists_ok
      ((Totals.noOverflow_addPayout _ _).mpr hpaid)
  have hsame : u.awarding e.author e.topic payout = c.totals.awarding e.author e.topic payout := by
    simp only [Totals.awarding, Totals.author?, hauthors]
  rw [yields_onTotals, yields_iff_of_ok hu, noOverflow_bind, noOverflow_onTotals,
    Totals.noOverflow_addRewards, hsame]
  exact and_iff_left (.of_forall (fun _ _ => by simp) fun _ _ => trivial)

theorem Sound.posting_sure (h : c.Sound) (hsize : c.table.size + 1 < 2 ^ 32) (author : String)
    (topic : Topic) (es : List Entry) : ∀ x ∈ c.totals.posting author topic, x.Sure es := by
  have hlength : c.table.toList.length = c.table.size := c.table.length_toList
  unfold Totals.posting
  cases hrow : c.totals.author? author topic with
  | none => simp
  | some row =>
    have hr := h.totals.authors.row_eq ⟨author, topic⟩ row hrow
    have hposts : row.posts ≤ c.table.toList.length := by
      rw [hr]
      exact List.countP_le_length
    intro x hx
    obtain rfl := List.mem_singleton.mp hx
    refine Formed.Fits.sure ?_ (by simp)
    simp only [Formed.Fits, Aggregate.Holds]
    omega

theorem Sound.takingOff_fits (h : c.Sound) (hsize : c.table.size < 2 ^ 32) {id : Nat} {e : Entry}
    (he : c.table.get? id = some e) : ∀ x ∈ (c.totals.row e.topic).takingOff e, x.Fits := by
  have hperm := values_perm_erase (m := c.table.entries) he
  have hlength : c.table.toList.length = c.table.size := c.table.length_toList
  have hsum := hperm.length_eq
  obtain ⟨payout, hrow⟩ := (h.totals.perm hperm).topics.getD_eq e.topic
  rw [Totals.row, Totals.topic?, hrow]
  refine TopicTotals.recount_takingOff_fits ?_
  rw [List.length_cons] at hsum
  change c.table.entries.values.length = c.table.size at hlength
  omega

theorem Change.sums_sure (h : c.Sound) {change : Change} (hdue : change.Due c)
    (hsize : c.table.size < 2 ^ 32) (hentries : (change.entries s c).length < 2 ^ 32) :
    ∀ x ∈ change.sums s c, x.Sure (change.entries s c) := by
  have hlength : c.table.toList.length = c.table.size := c.table.length_toList
  cases change with
  | file e =>
    have hmore : c.table.toList.length + 1 < 2 ^ 32 := hentries
    obtain ⟨payout, hrow⟩ := h.totals.topics.getD_eq e.topic
    rw [sums, Totals.row, Totals.topic?, hrow, List.forall_mem_append]
    refine ⟨fun x hx => ?_, h.posting_sure (hlength ▸ hmore) e.author e.topic _⟩
    exact TopicTotals.recount_adding_sure (e := { e with id := c.table.nextId }) hmore hx
  | refresh content id =>
    obtain ⟨e, he⟩ := hdue
    have hperm := entries_refresh_perm (s := s) h content he
    have hfits := h.takingOff_fits hsize he
    have htopics := (h.totals.perm (values_perm_erase (m := c.table.entries) he)).topics
    obtain ⟨row, row', hrow, hless, hleft⟩ := htopics.lessCounts_head
    have hown : c.totals.row e.topic = row := by
      rw [Totals.row, Totals.topic?, hrow, Option.getD_some]
    have hmore := hperm.length_eq ▸ hentries
    rw [sums, he, Option.elim_some, List.forall_mem_append]
    refine ⟨TopicTotals.takingOff_sure hfits _, fun x hx => ?_⟩
    rw [hown, TopicTotals.less_eq hless, hleft] at hx
    exact (TopicTotals.recount_adding_sure (e := e.refreshed s content) hmore hx).perm hperm.symm
  | withdraw id =>
    obtain ⟨e, he⟩ := hdue
    rw [sums, he, Option.elim_some]
    exact TopicTotals.takingOff_sure (h.takingOff_fits hsize he) _
  | credit payout id =>
    obtain ⟨e, he⟩ := hdue
    rw [sums, he, Option.elim_some, List.forall_mem_append]
    refine ⟨fun x hx => ?_, fun x hx => ?_⟩
    · have hpaid := Totals.aggregate_of_paying hx
      exact ⟨by simp [hpaid], by simp [hpaid]⟩
    · have hawarded := Totals.aggregate_of_awarding hx
      exact ⟨by simp [hawarded], by simp [hawarded]⟩

/-- A change overflows just if one of the sums that it forms does not fit. -/
theorem Change.noOverflow_run (h : c.Sound) {change : Change} (hdue : change.Due c)
    (hsize : c.table.size < 2 ^ 32) :
    NoOverflow (change.run s) c ↔ ∀ x ∈ change.sums s c, x.Fits := by
  cases change with
  | file e => exact noOverflow_file h hdue
  | refresh content id =>
    obtain ⟨e, he⟩ := hdue
    exact noOverflow_refreshEntry h content he
  | withdraw id =>
    obtain ⟨e, he⟩ := hdue
    refine iff_of_true (noOverflow_withdrawEntry fun a ha => h.votesFit hsize.le ha) ?_
    rw [sums, he, Option.elim_some]
    exact h.takingOff_fits hsize he
  | credit payout id =>
    obtain ⟨e, he⟩ := hdue
    exact noOverflow_credit h payout he

end Catalog

end TagCatalog
