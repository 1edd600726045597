import TagCatalog.Proofs.Course

/-! What was paid under topics and to their authors. Filing opens rows and withdrawing closes them,
neither of which changes a balance that stays, and only a reward that returns pays anything. -/

namespace TagCatalog

/-- What payouts are credited to: a topic, or an author under a topic. -/
inductive Account
  | topic (topic : Topic)
  | author (author : String) (topic : Topic)
  deriving DecidableEq

/-- Payouts for an entry reach its topic, and its author under that topic. -/
def Account.covers (a : Account) (e : Entry) : Bool :=
  a = .topic e.topic || a = .author e.author e.topic

theorem Account.covers_topic {k : Topic} {e : Entry} :
    (Account.topic k).covers e = true ↔ e.topic = k := by
  simp only [covers, Bool.or_eq_true, decide_eq_true_eq, Account.topic.injEq, reduceCtorEq, or_false]
  exact eq_comm

theorem Account.covers_author {author : String} {k : Topic} {e : Entry} :
    (Account.author author k).covers e = true ↔ e.author = author ∧ e.topic = k := by
  simp only [covers, Bool.or_eq_true, decide_eq_true_eq, Account.author.injEq, reduceCtorEq, false_or]
  exact and_congr eq_comm eq_comm

namespace Totals

def balance? (t : Totals) : Account → Option Nat
  | .topic topic => (t.topic? topic).map (·.payout)
  | .author author topic => (t.author? author topic).map (·.rewards)

variable {t u v : Totals} {topic : Topic}

theorem balance?_putTopic (row : TopicTotals) (a : Account) :
    (t.putTopic topic row).balance? a =
      if a = .topic topic then some row.payout else t.balance? a := by
  cases a with
  | topic k =>
    by_cases hk : topic = k
    · simp [balance?, topic?_putTopic, hk]
    · simp [balance?, topic?_putTopic, hk, Ne.symm hk]
  | author b k => rfl

theorem balance?_putAuthor (author : String) (row : AuthorTotals) (a : Account) :
    (t.putAuthor ⟨author, topic⟩ row).balance? a =
      if a = .author author topic then some row.rewards else t.balance? a := by
  cases a with
  | topic k => rfl
  | author b k =>
    simp only [balance?, author?, putAuthor, getElem?_insert_eq, Authorship.mk.injEq,
      Account.author.injEq]
    by_cases hk : author = b ∧ topic = k
    · simp [hk]
    · have hk' : ¬ (b = author ∧ k = topic) := fun h => hk ⟨h.1.symm, h.2.symm⟩
      simp [hk, hk']

/-- No row is gone, and nothing was paid to a new one. -/
def Opens (t u : Totals) : Prop :=
  ∀ a, u.balance? a = t.balance? a ∨ t.balance? a = none ∧ u.balance? a = some 0

/-- No row is new, and one that stays holds what it held. -/
def Closes (t u : Totals) : Prop :=
  ∀ a, u.balance? a = t.balance? a ∨ u.balance? a = none

/-- Rows may be new or gone, but a row that stays holds what it held. -/
def Carries (t u : Totals) : Prop :=
  ∀ a, u.balance? a = t.balance? a ∨ u.balance? a = none ∨
    t.balance? a = none ∧ u.balance? a = some 0

theorem Opens.refl (t : Totals) : t.Opens t := fun _ => .inl rfl

theorem Opens.trans (h : t.Opens u) (h' : u.Opens v) : t.Opens v := by
  intro a
  rcases h a with ha | ⟨hnone, ha⟩
  · rcases h' a with ha' | ⟨hnone', ha'⟩
    · exact .inl (ha'.trans ha)
    · exact .inr ⟨ha.symm.trans hnone', ha'⟩
  · rcases h' a with ha' | ⟨hnone', -⟩
    · exact .inr ⟨hnone, ha'.trans ha⟩
    · cases ha.symm.trans hnone'

theorem Closes.refl (t : Totals) : t.Closes t := fun _ => .inl rfl

theorem Closes.trans (h : t.Closes u) (h' : u.Closes v) : t.Closes v := by
  intro a
  rcases h' a with ha' | ha'
  · rw [ha']
    exact h a
  · exact .inr ha'

theorem Opens.carries (h : t.Opens u) (h' : u.Closes v) : t.Carries v := by
  intro a
  rcases h' a with ha' | ha'
  · rcases h a with ha | ⟨hnone, ha⟩
    · exact .inl (ha'.trans ha)
    · exact .inr (.inr ⟨hnone, ha'.trans ha⟩)
  · exact .inr (.inl ha')

theorem Carries.of_closes (h : t.Closes u) : t.Carries u := (Opens.refl t).carries h

theorem Carries.of_eq (h : u.balance? = t.balance?) : t.Carries u := fun a => .inl (congrFun h a)

theorem Carries.balance_eq (h : t.Carries u) {a : Account} {x y : Nat} (hx : t.balance? a = some x)
    (hy : u.balance? a = some y) : y = x := by
  rcases h a with hsame | hgone | ⟨hnone, -⟩
  · exact Option.some.inj (hy.symm.trans (hsame.trans hx))
  · cases hgone.symm.trans hy
  · cases hnone.symm.trans hx

section

variable {failed : Fault → Totals → Prop}

theorem lessCounts_payout {e : Entry} {row row' : TopicTotals} (h : lessCounts e row = .ok row') :
    row'.payout = row.payout := by
  have hplus := congrArg TopicTotals.payout (plus_of_lessCounts h)
  rwa [TopicTotals.plus_payout] at hplus

theorem yields_add_opens (e : Entry) :
    Update.Yields (add e) t (fun _ u => t.Opens u) failed := by
  refine (yields_add e).imp ?_
  rintro _ _ rfl a
  rw [balance?_putTopic, TopicTotals.plus_payout]
  split
  · rename_i ha
    subst ha
    cases hr : t.topic? e.topic with
    | none => exact .inr (by simp [balance?, hr])
    | some row => exact .inl (by simp [balance?, hr])
  · exact .inl rfl

theorem yields_addPost_opens (author : String) :
    Update.Yields (addPost author topic) t (fun _ u => t.Opens u) failed := by
  refine (yields_addPost author topic).imp ?_
  rintro _ _ rfl a
  rw [balance?_putAuthor]
  split
  · rename_i ha
    subst ha
    cases hr : t.author? author topic with
    | none => exact .inr (by simp [balance?, hr])
    | some row => exact .inl (by simp [balance?, hr])
  · exact .inl rfl

theorem balance?_dropTopic (a : Account) :
    (t.dropTopic topic).balance? a = if a = .topic topic then none else t.balance? a := by
  cases a with
  | topic k =>
    simp only [balance?, topic?, dropTopic, getElem?_erase_eq, Account.topic.injEq, eq_comm]
    split <;> rfl
  | author b k => rfl

theorem yields_remove_closes (e : Entry) :
    Update.Yields (remove e) t (fun _ u => t.Closes u) fun _ u => t.Closes u := by
  refine (yields_remove e).mono ?_ ?_
  · intro gone u hh a
    obtain ⟨row, row', hr, hless, -, rfl⟩ := hh
    split
    · rw [balance?_dropTopic]
      split
      · exact .inr rfl
      · exact .inl rfl
    · rw [balance?_putTopic]
      split
      · rename_i ha
        subst ha
        refine .inl ?_
        simp [balance?, hr, TopicTotals.lessVotes, lessCounts_payout hless]
      · exact .inl rfl
  · rintro _ _ ⟨rfl, -⟩
    exact .refl _

theorem yields_removePost_closes (author : String) :
    Update.Yields (removePost author topic) t (fun _ u => t.Closes u) fun _ u => t.Closes u := by
  refine (yields_removePost author topic).mono ?_ ?_
  · intro _ u hh a
    obtain ⟨row, hr, rfl⟩ := hh
    split
    · cases a with
      | topic k => exact .inl rfl
      | author b k =>
        simp only [balance?, author?, getElem?_erase_eq]
        split
        · exact .inr rfl
        · exact .inl rfl
    · rw [balance?_putAuthor]
      split
      · rename_i ha
        subst ha
        exact .inl (by simp [balance?, hr])
      · exact .inl rfl
  · rintro _ _ ⟨rfl, -⟩
    exact .refl _

theorem yields_replace_balance {old new : Entry} (htopic : new.topic = old.topic) :
    Update.Yields (replace old new) t (fun _ u => u.balance? = t.balance?)
      fun _ u => u.balance? = t.balance? := by
  refine (yields_replace htopic).mono ?_ ?_
  · intro _ u hh
    obtain ⟨row, row', hr, hless, rfl⟩ := hh
    funext a
    rw [balance?_putTopic]
    split
    · rename_i ha
      subst ha
      simp [balance?, hr, TopicTotals.lessVotes, lessCounts_payout hless]
    · rfl
  · rintro _ _ ⟨rfl, -⟩
    rfl

theorem yields_addPayout_balance (amount : Nat) :
    Update.Yields (addPayout topic amount) t (fun _ u => ∀ a, u.balance? a =
      if a = .topic topic then (t.balance? a).map (· + amount) else t.balance? a) failed := by
  simp only [addPayout, Update.yields_bind, Update.yields_get]
  cases hr : t.topic? topic with
  | none =>
    intro a
    split
    · rename_i ha
      simp [ha, balance?, hr]
    · rfl
  | some row =>
    simp only [Update.yields_bind, Update.yields_sum, Update.yields_modify, Update.yields_pure]
    intro _ a
    rw [balance?_putTopic]
    split
    · rename_i ha
      simp [ha, balance?, hr]
    · rfl

theorem yields_addRewards_balance (author : String) (amount : Nat) :
    Update.Yields (addRewards author topic amount) t (fun _ u => ∀ a, u.balance? a =
      if a = .author author topic then (t.balance? a).map (· + amount) else t.balance? a)
      failed := by
  simp only [addRewards, Update.yields_bind, Update.yields_get]
  cases hr : t.author? author topic with
  | none =>
    intro a
    split
    · rename_i ha
      simp [ha, balance?, hr]
    · rfl
  | some row =>
    simp only [Update.yields_bind, Update.yields_sum, Update.yields_modify, Update.yields_pure]
    intro _ a
    rw [balance?_putAuthor]
    split
    · rename_i ha
      simp [ha, balance?, hr]
    · rfl

end

end Totals

namespace Catalog

def balance? (c : Catalog) (a : Account) : Option Nat := c.totals.balance? a

variable {s : Settings} {source : ContentSource} {c d : Catalog}

theorem yields_file_opens (e : Entry) :
    Update.Yields (file e) c (fun _ d => c.totals.Opens d.totals) fun _ d =>
      c.totals.Opens d.totals := by
  simp only [file, Update.yields_bind, yields_onTable, yields_requireEntry]
  refine .of_forall (fun id table => ⟨fun a _ => ?_, fun _ => .refl _⟩) fun _ _ => .refl _
  simp only [yields_onTotals]
  refine (Totals.yields_add_opens a).imp ?_
  intro _ totals hadd
  refine (Totals.yields_addPost_opens a.author).imp ?_
  intro _ totals' hpost
  -- Registering a language writes to no row.
  split
  · exact hadd.trans hpost
  · exact hadd.trans hpost

theorem yields_withdrawEntry_closes (id : Nat) :
    Update.Yields (withdrawEntry id) c (fun _ d => c.totals.Closes d.totals) fun _ d =>
      c.totals.Closes d.totals := by
  simp only [withdrawEntry, Update.yields_bind, yields_requireEntry, Update.yields_get,
    Update.yields_require]
  refine ⟨fun e _ => ⟨fun _ _ => ?_, fun _ => .refl _⟩, fun _ => .refl _⟩
  simp only [yields_onTotals, yields_onTable]
  refine (Totals.yields_remove_closes e).imp ?_
  intro _ totals hremove
  refine (Totals.yields_removePost_closes e.author).mono ?_ ?_
  · intro _ totals' hpost
    exact .of_forall (fun _ _ => hremove.trans hpost) fun _ _ => hremove.trans hpost
  · exact fun _ totals' hpost => hremove.trans hpost

theorem yields_refreshEntry_balance (content : Content) (id : Nat) :
    Update.Yields (refreshEntry s content id) c (fun _ d => d.balance? = c.balance?)
      fun _ d => d.balance? = c.balance? := by
  simp only [refreshEntry, Update.yields_bind, yields_requireEntry]
  refine ⟨fun e _ => ?_, fun _ => trivial⟩
  simp only [yields_onTotals, yields_onTable]
  have htopic : (e.refreshed s content).topic = e.topic := rfl
  refine (Totals.yields_replace_balance htopic).mono ?_ ?_
  · intro _ totals hreplace
    exact .of_forall (fun _ _ => hreplace) fun _ _ => hreplace
  · exact fun _ _ hreplace => hreplace

section

variable {I : Catalog → Prop} (hI : ∀ content id c, I c →
  Update.Yields (refreshEntry s content id) c (fun _ d => I d) fun _ d => I d)
include hI

/-- What refreshing one entry keeps, refreshing a chain of replies keeps. -/
theorem yields_climb_of (hops : Nat) (content : Content) (h : I c) :
    Update.Yields (climb s source hops content) c (fun _ d => I d) fun _ d => I d := by
  have hcontent (content : Content) (c : Catalog) (h : I c) :
      Update.Yields (refreshContent s content) c (fun _ d => I d) fun _ d => I d := by
    simp only [refreshContent, Update.yields_bind, Update.yields_get, Update.yields_pure]
    exact Update.yields_forM (I := fun _ d => I d) _ (fun id _ d hd => hI content id d hd) h
  rw [climb_eq, Update.yields_bind]
  refine (Update.yields_mapM_of _ (fun content d hd => hcontent content d hd) h).imp ?_
  intro counts d hd
  split
  · exact hd
  · exact hd

theorem yields_refreshUp_of (content : Content) (h : I c) :
    Update.Yields (refreshUp s source content) c (fun _ d => I d) fun _ d => I d := by
  unfold refreshUp
  split
  · exact h
  · exact yields_climb_of hI _ content h

end

theorem yields_refreshUp_balance (content : Content) :
    Update.Yields (refreshUp s source content) c (fun _ d => d.balance? = c.balance?)
      fun _ d => d.balance? = c.balance? := by
  refine yields_refreshUp_of (I := fun d => d.balance? = c.balance?) ?_ content rfl
  intro content id d hd
  exact (yields_refreshEntry_balance content id).mono (fun _ _ h => h.trans hd)
    fun _ _ h => h.trans hd

theorem yields_refresh_balance (a : Address) :
    Update.Yields (refresh s source a) c (fun _ d => d.balance? = c.balance?)
      fun _ d => d.balance? = c.balance? := by
  simp only [refresh, Update.yields_bind, yields_requireContent, implies_true, and_true]
  exact fun content _ => yields_refreshUp_balance content

theorem yields_place_opens (content : Content) (parent : Option Nat) (present : List Entry)
    (topic : Topic) :
    Update.Yields (place s content parent present topic) c (fun _ d => c.totals.Opens d.totals)
      fun _ d => c.totals.Opens d.totals := by
  have hrefresh (d : Catalog) (hd : d.balance? = c.balance?) : c.totals.Opens d.totals :=
    fun a => .inl (congrFun hd a)
  unfold place
  split
  · exact (yields_refreshEntry_balance content _).mono (fun _ d hd => hrefresh d hd)
      fun _ d hd => hrefresh d hd
  · exact yields_file_opens _

theorem yields_placeAll_opens (content : Content) (parent : Option Nat) (present : List Entry)
    (topics : List Topic) :
    Update.Yields (topics.forM (place s content parent present)) c
      (fun _ d => c.totals.Opens d.totals) fun _ d => c.totals.Opens d.totals := by
  refine Update.yields_forM (I := fun _ (d : Catalog) => c.totals.Opens d.totals) topics ?_ (.refl _)
  intro topic _ d hd
  exact (yields_place_opens content parent present topic).mono (fun _ _ h => hd.trans h)
    fun _ _ h => hd.trans h

theorem yields_withdrawAll_closes {β : Type} (idOf : β → Nat) (bs : List β) :
    Update.Yields (bs.forM fun b => withdrawEntry (idOf b)) c
      (fun _ d => c.totals.Closes d.totals) fun _ d => c.totals.Closes d.totals := by
  refine Update.yields_forM (I := fun _ (d : Catalog) => c.totals.Closes d.totals) bs ?_ (.refl _)
  intro b _ d hd
  exact (yields_withdrawEntry_closes (idOf b)).mono (fun _ _ h => hd.trans h)
    fun _ _ h => hd.trans h

/-- New topics are filed before old ones are withdrawn, so that no row is made anew. -/
theorem yields_classify_carries (a : Address) :
    Update.Yields (classify s source a) c (fun _ d => c.totals.Carries d.totals)
      fun _ d => c.totals.Carries d.totals := by
  have hstart : c.totals.Carries c.totals := .of_closes (.refl _)
  simp only [classify, Update.yields_bind, yields_requireContent]
  refine ⟨fun content _ => ?_, fun _ => hstart⟩
  split
  case isFalse => exact hstart
  rw [Update.yields_bind]
  refine yields_requireParent content (fun parent _ => ?_) fun _ _ _ => hstart
  simp only [Update.yields_bind, Update.yields_get, Update.yields_pure]
  have hread (id : Nat) (d : Catalog) (hd : d = c) :
      Update.Yields (requireEntry id) d (fun _ d => d = c) fun _ d => d = c := by
    simp [hd]
  refine (Update.yields_mapM_of (I := fun d => d = c) _ hread rfl).mono ?_ ?_
  · rintro present _ rfl
    refine (yields_placeAll_opens _ _ _ _).mono ?_ fun _ _ hd => hd.carries (.refl _)
    intro _ d hd
    exact (yields_withdrawAll_closes Entry.id _).mono (fun _ _ hd' => hd.carries hd')
      fun _ _ hd' => hd.carries hd'
  · rintro _ _ rfl
    exact hstart

theorem yields_withdraw_carries (a : Address) :
    Update.Yields (withdraw s source a) c (fun _ d => c.totals.Carries d.totals)
      fun _ d => c.totals.Carries d.totals := by
  have hstart : c.totals.Carries c.totals := .of_closes (.refl _)
  simp only [withdraw, Update.yields_bind, yields_requireContent, Update.yields_get]
  refine ⟨fun content _ => ?_, fun _ => hstart⟩
  refine (yields_withdrawAll_closes (fun id => id) _).mono ?_ fun _ _ hd => .of_closes hd
  intro _ d hd
  refine yields_requireParent content (fun parent _ => ?_) fun _ _ _ => .of_closes hd
  cases parent with
  | none => exact .of_closes hd
  | some parent =>
    simp only [Update.yields_bind, Update.yields_pure]
    have hkept (d' : Catalog) (hd' : d'.balance? = d.balance?) : c.totals.Carries d'.totals := by
      have hclosed : d.totals.Closes d'.totals := fun a => .inl (congrFun hd' a)
      exact .of_closes (hd.trans hclosed)
    exact (yields_refreshUp_balance parent).mono (fun _ d' hd' => hkept d' hd')
      fun _ d' hd' => hkept d' hd'

theorem yields_sweep_carries (author : String) :
    Update.Yields (sweep source author) c (fun _ d => c.totals.Carries d.totals)
      fun _ d => c.totals.Carries d.totals := by
  simp only [sweep, Update.yields_bind, Update.yields_get, Update.yields_pure]
  exact (yields_withdrawAll_closes AuthorPlace.id _).mono (fun _ _ hd => .of_closes hd)
    fun _ _ hd => .of_closes hd

theorem yields_credit_balance {id : Nat} {e : Entry} (he : c.table.get? id = some e)
    (payout : Nat) :
    Update.Yields (credit payout id) c
      (fun _ d => d.table = c.table ∧ ∀ a, d.balance? a =
        if a.covers e then (c.balance? a).map (· + payout) else c.balance? a)
      fun _ _ => False := by
  simp only [credit, Update.yields_bind, yields_requireEntry, he, Option.some.injEq, forall_eq',
    reduceCtorEq, false_implies, and_true, yields_onTotals, Update.yields_pure]
  refine (Totals.yields_addPayout_balance payout).imp ?_
  intro _ totals hpayout
  refine (Totals.yields_addRewards_balance e.author payout).imp ?_
  intro _ totals' hrewards
  refine ⟨trivial, fun a => ?_⟩
  change totals'.balance? a = if a.covers e then (c.totals.balance? a).map _ else c.totals.balance? a
  rw [hrewards, hpayout]
  cases a with
  | topic k => simp [Account.covers]
  | author b k => simp [Account.covers]

/-- Each entry of the list pays its accounts once. -/
theorem yields_creditAll_balance (payout : Nat) (ids : List Nat)
    (hlive : ∀ id ∈ ids, (c.table.get? id).isSome) :
    Update.Yields (ids.forM (credit payout)) c
      (fun _ d => ∀ a, d.balance? a =
        (c.balance? a).map (· + payout * (ids.filterMap c.table.get?).countP a.covers))
      fun _ _ => False := by
  induction ids generalizing c with
  | nil =>
    intro a
    simp
  | cons id ids ih =>
    obtain ⟨e, he⟩ := Option.isSome_iff_exists.mp (hlive id (by simp))
    change Update.Yields (credit payout id >>= fun _ => ids.forM _) c _ _
    rw [Update.yields_bind]
    refine (yields_credit_balance he payout).imp ?_
    intro _ d hh
    obtain ⟨htable, hcredit⟩ := hh
    refine (ih fun i hi => by rw [htable]; exact hlive i (by simp [hi])).imp ?_
    intro _ d' hrest a
    rw [hrest, hcredit, htable, List.filterMap_cons, he]
    by_cases hcovers : a.covers e = true
    · have hcount : payout + payout * (ids.filterMap c.table.get?).countP a.covers =
          payout * ((ids.filterMap c.table.get?).countP a.covers + 1) := by
        rw [Nat.mul_add, Nat.mul_one, Nat.add_comm]
      simp only [if_pos hcovers, Option.map_map, List.countP_cons, ← hcount]
      cases c.balance? a with
      | none => rfl
      | some n => exact congrArg some (Nat.add_assoc n _ _)
    · simp [hcovers]

/-- The accounts that a payout for content reaches. -/
def accountsOf (c : Catalog) (content : Content) : List Account :=
  (c.topicsOfContent content.id).toList.flatMap fun topic =>
    [.topic topic, .author content.author topic]

theorem mem_accountsOf {content : Content} {a : Account} :
    a ∈ c.accountsOf content ↔ ∃ topic ∈ (c.entriesOfContent content.id).map (·.topic),
      a = .topic topic ∨ a = .author content.author topic := by
  simp [accountsOf, topicsOfContent, Std.ExtTreeSet.mem_ofList]

theorem countP_covers (h : c.Sound) {content : Content}
    (howner : ∀ e ∈ c.entriesOfContent content.id, e.author = content.author) (a : Account) :
    (c.entriesOfContent content.id).countP a.covers =
      if a ∈ c.accountsOf content then 1 else 0 := by
  have hcount (k : Topic) := (nodup_topics_of_entries h content.id).count (a := k)
  have hmem : a ∈ c.accountsOf content ↔ ∃ topic ∈ (c.entriesOfContent content.id).map (·.topic),
      a = .topic topic ∨ a = .author content.author topic := mem_accountsOf
  cases a with
  | topic k =>
    have hcovers : (c.entriesOfContent content.id).countP (Account.topic k).covers =
        ((c.entriesOfContent content.id).map (·.topic)).count k := by
      rw [List.count, List.countP_map]
      exact List.countP_congr fun e _ => Account.covers_topic.trans beq_iff_eq.symm
    rw [hcovers, hcount]
    simp only [hmem, Account.topic.injEq, reduceCtorEq, or_false, exists_eq_right']
  | author b k =>
    by_cases hb : b = content.author
    · subst hb
      have hcovers : (c.entriesOfContent content.id).countP (Account.author content.author k).covers =
          ((c.entriesOfContent content.id).map (·.topic)).count k := by
        rw [List.count, List.countP_map]
        refine List.countP_congr fun e he => Account.covers_author.trans ?_
        exact (and_iff_right (howner e he)).trans beq_iff_eq.symm
      rw [hcovers, hcount]
      simp only [hmem, Account.author.injEq, true_and, reduceCtorEq, false_or, exists_eq_right']
    · have hnone : ∀ e ∈ c.entriesOfContent content.id, ¬ (Account.author b k).covers e = true :=
        fun e he hcovers => hb ((Account.covers_author.mp hcovers).1.symm.trans (howner e he))
      rw [List.countP_eq_zero.mpr hnone, if_neg]
      simp [hmem, hb]

end Catalog

namespace Operation

/-- What an operation pays into an account: its payout, once, if it is a reward that returned. -/
def pays (l : Ledger) (c : Catalog) (returned : Bool) (account : Account) : Operation → Nat
  | .reward a payout =>
    match l.at? a with
    | some content => if returned && (c.accountsOf content).contains account then payout else 0
    | none => 0
  | _ => 0

end Operation

namespace Catalog

variable {s : Settings} {l : Ledger} {c d : Catalog} {account : Account}

/-- An account that stays open holds what it held and what the operation pays it, and one that is new
holds nothing. -/
def Paid (l : Ledger) (returned : Bool) (op : Operation) (c d : Catalog) : Prop :=
  ∀ account, d.balance? account = (c.balance? account).map (· + op.pays l c returned account) ∨
    d.balance? account = none ∨ c.balance? account = none ∧ d.balance? account = some 0

theorem Paid.of_carries {op : Operation} {returned : Bool} (h : c.totals.Carries d.totals)
    (hpays : ∀ account, op.pays l c returned account = 0) : Paid l returned op c d := by
  intro account
  rw [hpays, show (fun n : Nat => n + 0) = id from rfl, Option.map_id]
  exact h account

theorem Paid.of_eq {op : Operation} {returned : Bool} (h : d = c)
    (hpays : ∀ account, op.pays l c returned account = 0) : Paid l returned op c d :=
  .of_carries (.of_eq (by rw [h])) hpays

theorem yields_reward_paid (h : c.Sound)
    (howner : ∀ id e content, c.table.get? id = some e → l.byId? e.content = some content →
      e.author = content.author)
    (hl : l.Coherent) (a : Address) (payout : Nat) :
    Update.Yields (reward s l.source a payout) c
      (fun _ d => Paid l true (.reward a payout) c d)
      fun _ d => Paid l false (.reward a payout) c d := by
  have hnothing (account : Account) : (Operation.reward a payout).pays l c false account = 0 := by
    simp only [Operation.pays]
    split <;> rfl
  simp only [reward, Update.yields_bind, yields_requireContent, Update.yields_get,
    Update.yields_pure]
  refine ((yields_refresh h a).and (yields_refresh_balance a)).mono ?_ ?_
  · intro _ d hh
    obtain ⟨⟨hd, hrefreshed, -⟩, hbalance⟩ := hh
    refine ⟨fun content hcontent => ?_, fun _ => .of_carries (.of_eq hbalance) hnothing⟩
    have hlive : ∀ id ∈ d.table.idsOfContent content.id, (d.table.get? id).isSome := by
      intro id hid
      obtain ⟨e, he, -⟩ := hd.table.mem_idsOfContent.mp hid
      simp [he]
    refine (yields_creditAll_balance payout _ hlive).mono ?_ (fun _ _ => False.elim)
    intro _ d' hcredit account
    have hstored : l.byId? content.id = some content := (hl.at?_eq_some.mp hcontent).1
    have hwriter : ∀ e ∈ d.entriesOfContent content.id, e.author = content.author := by
      intro e he
      obtain ⟨⟨id, hid⟩, hec⟩ := (mem_entriesOfContent hd).mp he
      have hfiles : d.Files content.id e.author e.topic := ⟨id, e, hid, hec, rfl, rfl⟩
      obtain ⟨i, b, hb, hbc, hba, -⟩ := hrefreshed.files_iff.mp hfiles
      exact hba ▸ howner i b content hb (hbc ▸ hstored)
    have htopics : d.topicsOfContent content.id = c.topicsOfContent content.id := by
      apply Std.ExtTreeSet.ext_mem
      intro topic
      simp only [mem_topicsOfContent hd, mem_topicsOfContent h, hrefreshed.files_iff]
    have hcount := countP_covers hd hwriter account
    have haccounts : d.accountsOf content = c.accountsOf content := by
      simp only [accountsOf, htopics]
    rw [haccounts] at hcount
    refine .inl ?_
    have hpays : (Operation.reward a payout).pays l c true account =
        payout * (d.entriesOfContent content.id).countP account.covers := by
      have hat : l.at? a = some content := hcontent
      simp [Operation.pays, hat, hcount]
    rw [hcredit, hbalance, hpays]
    rfl
  · intro f d hh
    obtain ⟨-, hbalance⟩ := hh
    exact .of_carries (.of_eq hbalance) hnothing

theorem yields_apply_paid (h : c.Sound)
    (howner : ∀ id e content, c.table.get? id = some e → l.byId? e.content = some content →
      e.author = content.author)
    (hl : l.Coherent) (op : Operation) :
    Update.Yields (apply s l.source op) c (fun _ d => Paid l true op c d)
      fun _ d => Paid l false op c d := by
  have hcarried {m : Update Catalog Report} (hm : Update.Yields m c
      (fun _ d => c.totals.Carries d.totals) fun _ d => c.totals.Carries d.totals)
      (hpays : ∀ returned account, op.pays l c returned account = 0) :
      Update.Yields m c (fun _ d => Paid l true op c d) fun _ d => Paid l false op c d :=
    hm.mono (fun _ _ hd => .of_carries hd (hpays true)) fun _ _ hd => .of_carries hd (hpays false)
  have hrefresh (a : Address) : Update.Yields (refresh s l.source a) c
      (fun _ d => c.totals.Carries d.totals) fun _ d => c.totals.Carries d.totals :=
    (yields_refresh_balance a).mono (fun _ _ hd => .of_eq hd) fun _ _ hd => .of_eq hd
  cases op with
  | comment a parentAuthor parentPermlink =>
    simp only [apply, Update.yields_bind, yields_requireContent]
    refine ⟨fun content _ => ?_, fun _ => .of_eq rfl fun _ => rfl⟩
    split
    · exact hcarried (yields_classify_carries a) fun _ _ => rfl
    · exact .of_eq rfl fun _ => rfl
  | vote voter a weight => exact hcarried (hrefresh a) fun _ _ => rfl
  | reward a payout => exact yields_reward_paid h howner hl a payout
  | payoutUpdate a =>
    simp only [apply, Update.yields_bind, yields_requireContent]
    refine ⟨fun content _ => ?_, fun _ => .of_eq rfl fun _ => rfl⟩
    split
    · exact hcarried (hrefresh a) fun _ _ => rfl
    · exact hcarried (yields_withdraw_carries a) fun _ _ => rfl
  | delete a => exact hcarried (yields_sweep_carries a.author) fun _ _ => rfl
  | transfer sender recipient amount memo => exact .of_eq rfl fun _ => rfl
  | other => exact .of_eq rfl fun _ => rfl

end Catalog

def TopicTotals.unpaid (row : TopicTotals) : TopicTotals := { row with payout := 0 }

def AuthorTotals.unpaid (row : AuthorTotals) : AuthorTotals := { row with rewards := 0 }

/-- The catalogs differ in nothing but what was paid. -/
structure Catalog.SameButPaid (c d : Catalog) : Prop where
  table : d.table = c.table
  topics : ∀ topic, (d.totals.topic? topic).map TopicTotals.unpaid =
    (c.totals.topic? topic).map TopicTotals.unpaid
  authors : ∀ author topic, (d.totals.author? author topic).map AuthorTotals.unpaid =
    (c.totals.author? author topic).map AuthorTotals.unpaid
  languages : d.totals.languages = c.totals.languages

namespace Catalog

variable {c d : Catalog}

theorem SameButPaid.refl (c : Catalog) : c.SameButPaid c :=
  ⟨rfl, fun _ => rfl, fun _ _ => rfl, rfl⟩

theorem SameButPaid.sound (h : c.SameButPaid d) (hc : c.Sound) : d.Sound := by
  refine ⟨h.table ▸ hc.table, h.table ▸ hc.named, ?_⟩
  rw [h.table]
  refine ⟨⟨fun topic => ?_, fun topic row hr => ?_⟩, ⟨fun key => ?_, fun key row hr => ?_⟩, ?_⟩
  · have hmem := hc.totals.topics.mem_iff topic
    have hsome := congrArg Option.isSome (h.topics topic)
    simp only [Option.isSome_map] at hsome
    rw [← hmem, Std.ExtTreeMap.mem_iff_isSome_getElem?, Std.ExtTreeMap.mem_iff_isSome_getElem?]
    exact Bool.eq_iff_iff.mp hsome
  · have hmap := h.topics topic
    rw [show d.totals.topic? topic = some row from hr, Option.map_some] at hmap
    obtain ⟨row', hr', hrow⟩ := Option.map_eq_some_iff.mp hmap.symm
    have hcount := hc.totals.topics.row_eq topic row' hr'
    have hsame := congrArg (fun r : TopicTotals => { r with payout := row.payout }) hrow
    exact hsame.symm.trans (congrArg (fun r : TopicTotals => { r with payout := row.payout }) hcount)
  · have hmem := hc.totals.authors.mem_iff key
    have hsome := congrArg Option.isSome (h.authors key.author key.topic)
    simp only [Option.isSome_map] at hsome
    rw [← hmem, Std.ExtTreeMap.mem_iff_isSome_getElem?, Std.ExtTreeMap.mem_iff_isSome_getElem?]
    exact Bool.eq_iff_iff.mp hsome
  · have hmap := h.authors key.author key.topic
    rw [show d.totals.author? key.author key.topic = some row from hr, Option.map_some] at hmap
    obtain ⟨row', hr', hrow⟩ := Option.map_eq_some_iff.mp hmap.symm
    have hcount := hc.totals.authors.row_eq key row' hr'
    have hsame := congrArg (fun r : AuthorTotals => { r with rewards := row.rewards }) hrow
    exact hsame.symm.trans
      (congrArg (fun r : AuthorTotals => { r with rewards := row.rewards }) hcount)
  · rw [h.languages]
    exact hc.totals.languages

end Catalog

variable {s : Settings} {n n' : Node} {F : Filed}

/-- After any course a reward that returns is credited once to each account of its content. No other
operation, and none that fails, changes the balance of an account that stays. What was paid before is
left open here, so that a row that is dropped and made anew along the way would show. -/
theorem Course.balance_after (h : Course n F) {c : Catalog} (hc : n.catalog.SameButPaid c)
    {op : Operation} {returned : Bool}
    (hm : Node.Moves s (.apply op) { n with catalog := c } returned n') (account : Account) :
    (∀ x y, c.balance? account = some x → n'.catalog.balance? account = some y →
      y = x + op.pays n.ledger c returned account) ∧
    (c.balance? account = none → ∀ y, n'.catalog.balance? account = some y → y = 0) := by
  have hh := h.holds
  have hpaid : Catalog.Paid n.ledger returned op c n'.catalog := by
    refine hm.of_yields (P := fun returned n' => Catalog.Paid n.ledger returned op c n'.catalog) ?_
    simp only [Node.run, Node.onCatalog, Update.yields_bind, Update.yields_pure, Update.yields_get,
      Update.yields_within]
    refine Catalog.yields_apply_paid (hc.sound hh.catalog) ?_ hh.ledger op
    intro id e content he hcontent
    rw [hc.table] at he
    exact hh.owner_eq he hcontent
  rcases hpaid account with hsame | hgone | ⟨hnone, hnew⟩
  · refine ⟨fun x y hx hy => ?_, fun hnone y hy => ?_⟩
    · rw [hx, hy] at hsame
      exact Option.some.inj hsame
    · rw [hnone, hy] at hsame
      cases hsame
  · refine ⟨fun x y _ hy => ?_, fun _ y hy => ?_⟩
    · cases hgone.symm.trans hy
    · cases hgone.symm.trans hy
  · refine ⟨fun x _ hx => ?_, fun _ y hy => ?_⟩
    · cases hnone.symm.trans hx
    · exact (Option.some.inj (hnew.symm.trans hy)).symm

def rootRewarded : Node := rootFiled.next {} (.apply (.reward ⟨"alice", "morning"⟩ 5))

/-- A second reward adds to the first, for the topic and for its author. -/
theorem Course.balance_after_rootRewarded :
    let again := Move.apply (.reward ⟨"alice", "morning"⟩ 7)
    let account := Account.author "alice" (.tag "news")
    ∃ F, Course rootRewarded F ∧ rootRewarded.catalog.balance? account = some 5 ∧
      (rootRewarded.next {} again).catalog.balance? account = some 12 ∧
      12 = 5 + Operation.pays rootRewarded.ledger rootRewarded.catalog true account
        (.reward ⟨"alice", "morning"⟩ 7) := by
  intro again account
  obtain ⟨F, hfiled⟩ := exists_history_rootFiled
  have hrewarded : Node.Moves {} _ rootFiled true rootRewarded := Node.moves_next (by decide +kernel)
  have hagain : Node.Moves {} again rootRewarded true (rootRewarded.next {} again) :=
    Node.moves_next (by decide +kernel)
  have hh := hfiled.course.move hrewarded
  have hbefore : rootRewarded.catalog.balance? account = some 5 := by decide +kernel
  have hafter : (rootRewarded.next {} again).catalog.balance? account = some 12 := by decide +kernel
  have hlaw := (Course.balance_after hh (.refl _) hagain account).1 5 12 hbefore hafter
  exact ⟨_, hh, hbefore, hafter, hlaw⟩

end TagCatalog
