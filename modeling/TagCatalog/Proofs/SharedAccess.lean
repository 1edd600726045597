import TagCatalog.Catalog.Shared
import TagCatalog.Proofs.Conservation

/-! A shared catalog beside a plain one that the same operations were applied to. The two answer alike
until one operation overflows, and from then on the shared catalog refuses every call, so that what
the overflow has left half written is never seen. -/

namespace TagCatalog

namespace SharedCatalog

/-- A call through one of the handles, which are told apart by number. -/
inductive Call
  | clone (handle : Nat)
  | apply (handle : Nat) (source : ContentSource) (op : Operation)
  | read (handle : Nat)

/-- A catalog under its lock, and the settings of each handle on it. -/
structure Handles where
  settings : List Settings
  shared : SharedCatalog := .empty

namespace Handles

/-- What a call leads to, and nothing if there is no handle of that number. A clone takes over the
settings and refers to the same catalog. -/
def after? (handles : Handles) : Call → Option Handles
  | .clone i => do
    let s ← handles.settings[i]?
    return { handles with settings := handles.settings ++ [s] }
  | .apply i source op => do
    let s ← handles.settings[i]?
    return { handles with shared := Update.left (SharedCatalog.apply s source op) handles.shared }
  | .read i => do
    let _ ← handles.settings[i]?
    return handles

def run? (s : Settings) (calls : List Call) : Option Handles :=
  calls.foldlM after? { settings := [s] }

end Handles

def Call.plain? (s : Settings) : Call → Catalog → Option Catalog
  | .apply _ source op, c => Update.after? (Catalog.apply s source op) c
  | .clone _, c | .read _, c => some c

def plain? (s : Settings) (calls : List Call) : Option Catalog :=
  calls.foldlM (fun c call => call.plain? s c) .empty

variable {s : Settings} {source : ContentSource} {op : Operation} {calls : List Call}
  {plain : Option Catalog} {shared : SharedCatalog} {handles handles' : Handles}

/-- A shared catalog is the plain one as long as there is one, and poisoned after that. -/
inductive Shows : Option Catalog → SharedCatalog → Prop
  | intact (c : Catalog) : Shows (some c) ⟨c, false⟩
  | poisoned (c : Catalog) : Shows none ⟨c, true⟩

theorem Shows.apply (h : Shows plain shared) (s : Settings) (source : ContentSource)
    (op : Operation) :
    Shows (plain.bind (Update.after? (Catalog.apply s source op)))
      (Update.left (SharedCatalog.apply s source op) shared) := by
  cases h with
  | poisoned c => exact .poisoned c
  | intact c =>
    simp only [Option.bind_some, Update.after?, Update.left, SharedCatalog.apply,
      Bool.false_eq_true, if_false]
    cases Catalog.apply s source op c with
    | ok report d => exact .intact d
    | error halt d =>
      cases halt with
      | fault f => exact .intact d
      | overflow => exact .poisoned d

theorem Shows.eq_intact {c : Catalog} (h : Shows (some c) shared) : shared = ⟨c, false⟩ := by
  cases h
  rfl

theorem Shows.exists_poisoned (h : Shows none shared) : ∃ c, shared = ⟨c, true⟩ := by
  cases h with
  | poisoned c => exact ⟨c, rfl⟩

theorem Shows.answer_eq {c : Catalog} (h : Shows (some c) shared) (s : Settings)
    (source : ContentSource) (op : Operation) :
    Update.answer (SharedCatalog.apply s source op) shared =
      Update.answer (Catalog.apply s source op) c := by
  obtain rfl := h.eq_intact
  simp only [Update.answer, SharedCatalog.apply, Bool.false_eq_true, if_false]
  cases Catalog.apply s source op c with
  | ok report d => rfl
  | error halt d => cases halt <;> rfl

/-- Every handle has the settings of the first, and their catalog shows the plain one. -/
structure Handles.Follow (s : Settings) (plain : Option Catalog) (handles : Handles) : Prop where
  settings_eq : ∀ s' ∈ handles.settings, s' = s
  shows : Shows plain handles.shared

theorem Handles.Follow.start (s : Settings) : Follow s (some .empty) { settings := [s] } where
  settings_eq := by simp
  shows := .intact .empty

theorem Handles.Follow.after? (h : Follow s plain handles) {call : Call}
    (hcall : handles.after? call = some handles') :
    Follow s (plain.bind (call.plain? s)) handles' := by
  cases call with
  | clone i =>
    obtain ⟨s', hs', hnext⟩ := Option.bind_eq_some_iff.mp hcall
    obtain rfl := Option.some.inj hnext
    have hclone : s' = s := h.settings_eq s' (List.mem_of_getElem? hs')
    have hplain : plain.bind (Call.plain? s (.clone i)) = plain := Option.bind_fun_some plain
    rw [hplain]
    refine ⟨fun a ha => ?_, h.shows⟩
    rcases List.mem_append.mp ha with ha | ha
    · exact h.settings_eq a ha
    · exact (List.mem_singleton.mp ha).trans hclone
  | apply i source op =>
    obtain ⟨s', hs', hnext⟩ := Option.bind_eq_some_iff.mp hcall
    obtain rfl := Option.some.inj hnext
    obtain rfl := h.settings_eq s' (List.mem_of_getElem? hs')
    exact ⟨h.settings_eq, h.shows.apply s' source op⟩
  | read i =>
    obtain ⟨_, -, hnext⟩ := Option.bind_eq_some_iff.mp hcall
    obtain rfl := Option.some.inj hnext
    have hplain : plain.bind (Call.plain? s (.read i)) = plain := Option.bind_fun_some plain
    rw [hplain]
    exact h

theorem Handles.Follow.foldlM (h : Follow s plain handles)
    (hcalls : calls.foldlM Handles.after? handles = some handles') :
    Follow s (plain.bind (calls.foldlM fun c call => call.plain? s c)) handles' := by
  induction calls generalizing plain handles with
  | nil =>
    obtain rfl := Option.some.inj hcalls
    have hplain : plain.bind (List.foldlM (fun c call => Call.plain? s call c) · []) = plain :=
      Option.bind_fun_some plain
    rw [hplain]
    exact h
  | cons call calls ih =>
    obtain ⟨between, hbetween, hrest⟩ := Option.bind_eq_some_iff.mp hcalls
    have hlast := ih (h.after? hbetween) hrest
    rw [Option.bind_assoc] at hlast
    exact hlast

theorem Call.plain?_sound {c d : Catalog} (hc : c.Sound) {call : Call}
    (h : call.plain? s c = some d) : d.Sound := by
  cases call with
  | apply _ source op =>
    have hstep : Catalog.Step c d :=
      ⟨s, source, .apply op, (Update.after?_bind_pure _ _ c).trans h⟩
    exact hstep.sound hc
  | clone i => exact Option.some.inj h ▸ hc
  | read i => exact Option.some.inj h ▸ hc

theorem sound_of_plain? {c : Catalog} (h : plain? s calls = some c) : c.Sound :=
  foldlM_of_step (fun _ _ _ hc hcall => Call.plain?_sound hc hcall) .empty h

def weightySource : ContentSource :=
  let post (id : Nat) (author : String) (weight : Nat) : Content :=
    { (Content.post ⟨author, "morning"⟩ .epoch).inCategory "news" with
      id, cashoutTime := some .last, childrenRshares2 := weight }
  let posts := [post 1 "alice" (2 ^ 128 - 1), post 2 "bob" 1]
  ⟨fun a => posts.find? (·.address = a), fun id => posts.find? (·.id = id)⟩

def overfull : List Call :=
  [.clone 0, .apply 0 weightySource (.comment ⟨"alice", "morning"⟩ "" "news"),
    .apply 1 weightySource (.comment ⟨"bob", "morning"⟩ "" "news"), .read 0]

/-- The operation that overflows has filed an entry that its row does not count. -/
theorem exists_run?_overfull : ∃ handles, Handles.run? {} overfull = some handles ∧
    plain? {} overfull = none ∧ ¬ handles.shared.catalog.Tallied := by
  have hsome : (Handles.run? {} overfull).isSome := by decide +kernel
  have hnone : (plain? {} overfull).isNone := by decide +kernel
  obtain ⟨handles, hrun⟩ := Option.isSome_iff_exists.mp hsome
  have hposts : (Handles.run? {} overfull).bind (fun handles =>
      (handles.shared.catalog.totals.topic? (.tag "news")).map (·.topPosts)) = some 1 := by
    decide +kernel
  have hentries : (Handles.run? {} overfull).map (fun handles =>
      handles.shared.catalog.table.toList.countP
        fun e => e.topic = .tag "news" && e.isRoot) = some 2 := by decide +kernel
  rw [hrun] at hposts hentries
  refine ⟨handles, hrun, Option.isNone_iff_eq_none.mp hnone, fun htallied => ?_⟩
  obtain ⟨row, hrow, hone⟩ := Option.map_eq_some_iff.mp hposts
  have htwo := (htallied.topic_row _ row hrow).1
  have hwrong : 1 = 2 := hone.symm.trans (htwo.trans (Option.some.inj hentries))
  omega

/-- As long as nothing has overflowed, all handles answer for the catalog that a plain run of the same
operations leads to; after that they refuse every call. What is read has the totals of its entries,
whatever an operation that overflowed has left behind. -/
theorem Handles.plain_or_poisoned :
    (∀ (s : Settings) (calls : List Call) (handles : Handles), run? s calls = some handles →
      (∀ s' ∈ handles.settings, s' = s) ∧
      (∀ c, plain? s calls = some c →
        (∀ (α : Type) (view : Catalog → α), handles.shared.read view = .ok (view c)) ∧
        ∀ source op, Update.answer (SharedCatalog.apply s source op) handles.shared =
          Update.answer (Catalog.apply s source op) c) ∧
      (plain? s calls = none →
        (∀ (α : Type) (view : Catalog → α), handles.shared.read view = .error .poisoned) ∧
        ∀ source op, SharedCatalog.apply s source op handles.shared =
          .error (.fault .poisoned) handles.shared) ∧
      ∀ c, handles.shared.read id = .ok c → c.Tallied) ∧
    ∃ s calls handles, run? s calls = some handles ∧ plain? s calls = none ∧
      ¬ handles.shared.catalog.Tallied := by
  refine ⟨fun s calls handles hrun => ?_, {}, overfull, exists_run?_overfull⟩
  have hfollow : Follow s (plain? s calls) handles := (Follow.start s).foldlM hrun
  have hshows := hfollow.shows
  cases hplain : plain? s calls with
  | some c =>
    rw [hplain] at hshows
    have hread (α : Type) (view : Catalog → α) : handles.shared.read view = .ok (view c) := by
      rw [hshows.eq_intact]
      rfl
    refine ⟨hfollow.settings_eq, fun c' hc' => ?_, nofun, fun c' hc' => ?_⟩
    · obtain rfl := Option.some.inj hc'
      exact ⟨hread, hshows.answer_eq s⟩
    · obtain rfl := Except.ok.inj ((hread Catalog id).symm.trans hc')
      exact (sound_of_plain? hplain).tallied
  | none =>
    rw [hplain] at hshows
    obtain ⟨d, hpoisoned⟩ := hshows.exists_poisoned
    refine ⟨hfollow.settings_eq, nofun, fun _ => ⟨fun α view => ?_, fun source op => ?_⟩, ?_⟩
    · rw [hpoisoned]
      rfl
    · rw [hpoisoned]
      rfl
    · intro c hc
      rw [hpoisoned] at hc
      cases hc

theorem Handles.plain_or_poisoned_overfull : ∃ handles, run? {} overfull = some handles ∧
    (∀ s' ∈ handles.settings, s' = {}) ∧ handles.shared.read (·.table.size) = .error .poisoned := by
  obtain ⟨handles, hrun, hnone, -⟩ := exists_run?_overfull
  obtain ⟨hsettings, -, hpoisoned, -⟩ := plain_or_poisoned.1 {} overfull handles hrun
  exact ⟨handles, hrun, hsettings, (hpoisoned hnone).1 _ _⟩

end SharedCatalog

end TagCatalog
