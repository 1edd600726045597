import Mathlib
import TagCatalog.Update

/-! What an update does when it returns and when it reports a fault, of one that overflows nothing;
and, apart from that, which updates do not overflow. -/

namespace TagCatalog

namespace Update

variable {σ τ α β : Type}

/-- Started in `s`, the update returns into `ok` or reports a fault into `failed`, or overflows. -/
def Yields (m : Update σ α) (s : σ) (ok : α → σ → Prop) (failed : Fault → σ → Prop) : Prop :=
  match m s with
  | .ok a t => ok a t
  | .error (.fault f) t => failed f t
  | .error .overflow _ => True

/-- The state an update leaves behind, whether it returns or reports a fault. -/
def after? (m : Update σ α) (s : σ) : Option σ :=
  match m s with
  | .ok _ t | .error (.fault _) t => some t
  | .error .overflow _ => none

/-- The state an update leaves behind, even if it overflows. -/
def left (m : Update σ α) (s : σ) : σ :=
  match m s with
  | .ok _ t | .error _ t => t

/-- What an update tells its caller. -/
def answer (m : Update σ α) (s : σ) : Except Halt α :=
  match m s with
  | .ok a _ => .ok a
  | .error h _ => .error h

/-- The update as it bears on the state; its answer is not told, nor a fault. -/
def settled (m : Update σ α) : Update σ Unit := fun s =>
  match m s with
  | .ok _ t | .error (.fault _) t => .ok ⟨⟩ t
  | .error .overflow t => .error .overflow t

/-- The update returns when it is started in `s`. -/
def returns (m : Update σ α) (s : σ) : Bool :=
  match m s with
  | .ok .. => true
  | .error .. => false

variable {s : σ} {ok ok' : α → σ → Prop} {failed failed' : Fault → σ → Prop}

theorem Yields.mono {m : Update σ α} (h : Yields m s ok failed) (hok : ∀ a t, ok a t → ok' a t)
    (hfailed : ∀ f t, failed f t → failed' f t) : Yields m s ok' failed' := by
  unfold Yields at h ⊢
  split
  · simp_all
  · simp_all
  · trivial

theorem Yields.imp {m : Update σ α} (h : Yields m s ok failed) (hok : ∀ a t, ok a t → ok' a t) :
    Yields m s ok' failed :=
  h.mono hok fun _ _ hf => hf

theorem Yields.and {m : Update σ α} (h : Yields m s ok failed) (h' : Yields m s ok' failed') :
    Yields m s (fun a t => ok a t ∧ ok' a t) fun f t => failed f t ∧ failed' f t := by
  unfold Yields at h h' ⊢
  split
  · simp_all
  · simp_all
  · trivial

theorem Yields.of_forall {m : Update σ α} (hok : ∀ a t, ok a t) (hfailed : ∀ f t, failed f t) :
    Yields m s ok failed := by
  unfold Yields
  split
  · exact hok _ _
  · exact hfailed _ _
  · trivial

theorem Yields.of_ok {m : Update σ α} (h : Yields m s ok failed) {a : α} {t : σ}
    (hm : m s = .ok a t) : ok a t := by
  simpa [Yields, hm] using h

theorem Yields.of_fault {m : Update σ α} (h : Yields m s ok failed) {f : Fault} {t : σ}
    (hm : m s = .error (.fault f) t) : failed f t := by
  simpa [Yields, hm] using h

theorem yields_of_ne_fault {m : Update σ α} (h : ∀ f t, m s ≠ .error (.fault f) t) :
    Yields m s (fun _ _ => True) fun _ _ => False := by
  unfold Yields
  split
  · trivial
  · exact h _ _ ‹_›
  · trivial

theorem yields_iff_of_ok {m : Update σ α} {ok : α → σ → Prop} {failed : Fault → σ → Prop} {a : α} {t : σ}
    (h : m s = .ok a t) : Yields m s ok failed ↔ ok a t := by
  rw [Yields, h]

theorem Yields.returns_or_overflows {m : Update σ α} (h : Yields m s ok fun _ _ => False) :
    (∃ a t, m s = .ok a t ∧ ok a t) ∨ ∃ t, m s = .error .overflow t := by
  unfold Yields at h
  split at h
  · exact .inl ⟨_, _, ‹_›, h⟩
  · exact h.elim
  · exact .inr ⟨_, ‹_›⟩

/-- What cannot fail returns, unless it overflows. -/
theorem Yields.exists_ok {m : Update σ α} (h : Yields m s ok fun _ _ => False)
    (hm : ∀ t, m s ≠ .error .overflow t) : ∃ a t, m s = .ok a t ∧ ok a t := by
  refine h.returns_or_overflows.resolve_right ?_
  intro hh
  obtain ⟨t, ht⟩ := hh
  exact hm t ht

theorem Yields.of_after? {P : σ → Prop} {m : Update σ α}
    (h : Yields m s (fun _ t => P t) (fun _ t => P t)) {t : σ} (hm : after? m s = some t) : P t := by
  unfold Yields at h
  unfold after? at hm
  split at hm <;> simp_all

theorem yields_self (m : Update σ α) (s : σ) :
    Yields m s (fun a t => m s = .ok a t) fun f t => m s = .error (.fault f) t := by
  unfold Yields
  split <;> simp_all

theorem yields_after? (m : Update σ α) (s : σ) :
    Yields m s (fun _ t => after? m s = some t) fun _ t => after? m s = some t := by
  unfold Yields after?
  split <;> simp_all

theorem after?_bind_pure (m : Update σ β) (g : β → α) (s : σ) :
    after? (m >>= fun b => pure (g b)) s = after? m s := by
  simp only [after?, bind, EStateM.bind, pure, EStateM.pure]
  cases m s with
  | ok b t => rfl
  | error h t => cases h <;> rfl

theorem exists_ok_of_returns {m : Update σ α} (h : returns m s = true) (other : σ) :
    ∃ a, m s = .ok a ((after? m s).getD other) := by
  unfold returns at h
  unfold after?
  cases hm : m s with
  | ok a t => exact ⟨a, rfl⟩
  | error halt t => simp [hm] at h

theorem ne_error_of_returns {m : Update σ α} (h : returns m s = true) (halt : Halt) (t : σ) :
    m s ≠ .error halt t := by
  intro hm
  simp [returns, hm] at h

theorem ne_overflow_of_returns {m : Update σ α} (h : returns m s = true) (t : σ) :
    m s ≠ .error .overflow t :=
  ne_error_of_returns h .overflow t

theorem answer_of_ok {m : Update σ α} {a : α} {t : σ} (h : m s = .ok a t) : answer m s = .ok a := by
  rw [answer, h]

theorem bind_of_ok {m : Update σ β} {k : β → Update σ α} {b : β} {t : σ} (h : m s = .ok b t) :
    (m >>= k) s = k b t := by
  simp only [bind, EStateM.bind, h]

@[simp]
theorem yields_pure (a : α) : Yields (pure a) s ok failed ↔ ok a s := Iff.rfl

@[simp]
theorem yields_bind (m : Update σ β) (k : β → Update σ α) :
    Yields (m >>= k) s ok failed ↔
      Yields m s (fun b t => Yields (k b) t ok failed) failed := by
  simp only [Yields, bind, EStateM.bind]
  cases m s with
  | ok b t => rfl
  | error h t => cases h <;> rfl

@[simp]
theorem yields_map (g : β → α) (m : Update σ β) :
    Yields (g <$> m) s ok failed ↔ Yields m s (fun b t => ok (g b) t) failed := by
  simp only [Yields, Functor.map, EStateM.map]
  cases m s with
  | ok b t => rfl
  | error h t => cases h <;> rfl

@[simp]
theorem yields_get {ok : σ → σ → Prop} : Yields get s ok failed ↔ ok s s := Iff.rfl

@[simp]
theorem yields_set (t : σ) {ok : PUnit → σ → Prop} : Yields (set t) s ok failed ↔ ok ⟨⟩ t := Iff.rfl

@[simp]
theorem yields_modify (f : σ → σ) {ok : PUnit → σ → Prop} :
    Yields (modify f) s ok failed ↔ ok ⟨⟩ (f s) := Iff.rfl

@[simp]
theorem yields_fail (f : Fault) : Yields (fail f : Update σ α) s ok failed ↔ failed f s := Iff.rfl

@[simp]
theorem yields_require (f : Fault) (o : Option α) :
    Yields (require f o) s ok failed ↔ (∀ a, o = some a → ok a s) ∧ (o = none → failed f s) := by
  cases o <;> simp [require]

@[simp]
theorem yields_sum (bits a b : Nat) {ok : Nat → σ → Prop} :
    Yields (sum bits a b) s ok failed ↔ (a + b < 2 ^ bits → ok (a + b) s) := by
  unfold sum
  split
  · rename_i h
    simp [h]
  · rename_i h
    simp [h, Yields, throw, throwThe, MonadExceptOf.throw, EStateM.throw]

@[simp]
theorem yields_fits (bits : Nat) (n : Int) {ok : Int → σ → Prop} :
    Yields (fits bits n) s ok failed ↔
      (-(2 ^ (bits - 1)) ≤ n ∧ n < 2 ^ (bits - 1) → ok n s) := by
  unfold fits
  split
  · rename_i h
    simp [h]
  · rename_i h
    simp [h, Yields, throw, throwThe, MonadExceptOf.throw, EStateM.throw]

@[simp]
theorem yields_within (part : σ → τ) (replace : σ → τ → σ) (m : Update τ α) :
    Yields (within part replace m) s ok failed ↔
      Yields m (part s) (fun a t => ok a (replace s t)) (fun f t => failed f (replace s t)) := by
  simp only [Yields, within]
  cases m (part s) with
  | ok a t => rfl
  | error h t => cases h <;> rfl

theorem yields_forM {I : List β → σ → Prop} {f : β → Update σ PUnit} (l : List β)
    (hstep : ∀ b l s, I (b :: l) s → Yields (f b) s (fun _ t => I l t) failed) (h : I l s) :
    Yields (l.forM f) s (fun _ t => I [] t) failed := by
  induction l generalizing s with
  | nil => simpa using h
  | cons b l ih =>
    change Yields (f b >>= fun _ => l.forM f) s _ _
    rw [yields_bind]
    exact (hstep b l s h).imp fun _ t ht => ih ht

/-- Started in `s`, the update does not overflow. -/
def NoOverflow (m : Update σ α) (s : σ) : Prop := ∀ t, m s ≠ .error .overflow t

@[simp]
theorem noOverflow_pure (a : α) : NoOverflow (pure a) s := nofun

@[simp]
theorem noOverflow_get : NoOverflow get s := nofun

@[simp]
theorem noOverflow_modify (f : σ → σ) : NoOverflow (modify f) s := nofun

@[simp]
theorem noOverflow_fail (f : Fault) : NoOverflow (fail f : Update σ α) s := nofun

@[simp]
theorem noOverflow_require (f : Fault) (o : Option α) : NoOverflow (require f o) s := by
  cases o with
  | none => exact noOverflow_fail f
  | some a => exact noOverflow_pure a

@[simp]
theorem noOverflow_bind (m : Update σ β) (k : β → Update σ α) :
    NoOverflow (m >>= k) s ↔
      NoOverflow m s ∧ Yields m s (fun b t => NoOverflow (k b) t) fun _ _ => True := by
  simp only [NoOverflow, Yields, bind, EStateM.bind]
  cases m s with
  | ok b t => simp
  | error h t => cases h <;> simp

@[simp]
theorem noOverflow_map (g : β → α) (m : Update σ β) :
    NoOverflow (g <$> m) s ↔ NoOverflow m s := by
  simp only [NoOverflow, Functor.map, EStateM.map]
  cases m s <;> simp

@[simp]
theorem noOverflow_within (part : σ → τ) (replace : σ → τ → σ) (m : Update τ α) :
    NoOverflow (within part replace m) s ↔ NoOverflow m (part s) := by
  simp only [NoOverflow, within]
  cases m (part s) <;> simp

@[simp]
theorem noOverflow_sum (bits a b : Nat) : NoOverflow (sum bits a b) s ↔ a + b < 2 ^ bits := by
  unfold sum
  split
  · rename_i h
    simp [h]
  · rename_i h
    simp [h, NoOverflow, throw, throwThe, MonadExceptOf.throw, EStateM.throw]

@[simp]
theorem noOverflow_fits (bits : Nat) (n : Int) :
    NoOverflow (fits bits n) s ↔ -(2 ^ (bits - 1)) ≤ n ∧ n < 2 ^ (bits - 1) := by
  unfold fits
  split
  · rename_i h
    simp [h]
  · rename_i h
    simp [h, NoOverflow, throw, throwThe, MonadExceptOf.throw, EStateM.throw]

theorem noOverflow_forM {I : List β → σ → Prop} {f : β → Update σ PUnit} (l : List β)
    (hstep : ∀ b l s, I (b :: l) s →
      NoOverflow (f b) s ∧ Yields (f b) s (fun _ t => I l t) fun _ _ => True)
    (h : I l s) : NoOverflow (l.forM f) s := by
  induction l generalizing s with
  | nil => exact noOverflow_pure _
  | cons b l ih =>
    obtain ⟨hb, hl⟩ := hstep b l s h
    change NoOverflow (f b >>= fun _ => l.forM f) s
    rw [noOverflow_bind]
    exact ⟨hb, hl.imp fun _ t ht => ih ht⟩

theorem yields_mapM_of {I : σ → Prop} {f : β → Update σ α} (l : List β)
    (hstep : ∀ b s, I s → Yields (f b) s (fun _ t => I t) fun _ t => I t) (h : I s) :
    Yields (l.mapM f) s (fun _ t => I t) fun _ t => I t := by
  induction l generalizing s with
  | nil => exact h
  | cons b l ih =>
    simp only [List.mapM_cons, yields_bind, yields_pure]
    exact (hstep b s h).imp fun _ t ht => ih ht

theorem yields_mapM_read {f : β → Update σ α} (read? : β → Option α) (l : List β)
    (hf : ∀ b ∈ l, ∀ a, read? b = some a → Yields (f b) s (fun a' t => a' = a ∧ t = s) failed)
    (hread : ∀ b ∈ l, (read? b).isSome) {ok : List α → σ → Prop}
    (h : ok (l.filterMap read?) s) : Yields (l.mapM f) s ok failed := by
  induction l generalizing ok with
  | nil => simpa using h
  | cons b l ih =>
    obtain ⟨a, ha⟩ := Option.isSome_iff_exists.mp (hread b (by simp))
    simp only [List.mapM_cons, yields_bind]
    refine (hf b (by simp) a ha).imp ?_
    intro _ _ hh
    obtain ⟨rfl, rfl⟩ := hh
    apply ih (fun b hb => hf b (by simp [hb])) (fun b hb => hread b (by simp [hb]))
    simpa [ha] using h

theorem noOverflow_bind_of_ok {m : Update σ β} {k : β → Update σ α} {b : β} {t : σ}
    (h : m s = .ok b t) : NoOverflow (m >>= k) s ↔ NoOverflow (k b) t := by
  rw [NoOverflow, bind_of_ok h, NoOverflow]

theorem mapM_read {f : β → Update σ α} {read? : β → Option α} {l : List β}
    (h : ∀ b ∈ l, ∃ a, read? b = some a ∧ f b s = .ok a s) :
    l.mapM f s = .ok (l.filterMap read?) s := by
  induction l with
  | nil => rfl
  | cons b l ih =>
    obtain ⟨a, ha, hf⟩ := h b List.mem_cons_self
    have hl := ih fun b' hb' => h b' (List.mem_cons_of_mem b hb')
    simp only [List.mapM_cons, bind, EStateM.bind, hf, hl, pure, EStateM.pure,
      List.filterMap_cons, ha]

theorem settled_ne_fault (m : Update σ α) (f : Fault) (t : σ) :
    settled m s ≠ .error (.fault f) t := by
  unfold settled
  split <;> simp

theorem exists_settled_overflow {m : Update σ α} :
    (∃ t, settled m s = .error .overflow t) ↔ ∃ t, m s = .error .overflow t := by
  unfold settled
  split <;> simp [*]

theorem settled_bind_idle {m : Update σ β} {k : β → Update σ α}
    (hk : ∀ b t, settled (k b) t = .ok ⟨⟩ t) : settled (m >>= k) s = settled m s := by
  simp only [settled, bind, EStateM.bind]
  cases m s with
  | ok b t => exact hk b t
  | error halt t => cases halt <;> rfl

theorem settled_bind_of_ne_ok {m : Update σ β} {k : β → Update σ α} (h : ∀ b t, m s ≠ .ok b t) :
    settled (m >>= k) s = settled m s := by
  simp only [settled, bind, EStateM.bind]
  cases hm : m s with
  | ok b t => exact absurd hm (h b t)
  | error halt t => cases halt <;> rfl

theorem settled_of_yields {m : Update σ Unit} {ok : Unit → σ → Prop}
    (h : Yields m s ok fun _ _ => False) : settled m s = m s := by
  unfold Yields at h
  unfold settled
  split at h
  · simp [*]
  · exact h.elim
  · simp [*]

theorem settled_bind {m : Update σ β} {k : β → Update σ α} {n : Update σ Unit}
    (h : Yields m s (fun b t => settled (k b) t = n t) fun _ _ => False) :
    settled (m >>= k) s = (do settled m; n) s := by
  simp only [Yields] at h
  simp only [settled, bind, EStateM.bind] at h ⊢
  cases hm : m s with
  | ok b t => simpa [hm] using h
  | error halt t =>
    cases halt with
    | fault f => simp [hm] at h
    | overflow => rfl

end Update

/-- What each step keeps, a run keeps that meets no end. -/
theorem foldlM_of_step {σ β : Type} {P : σ → Prop} {f : σ → β → Option σ}
    (hstep : ∀ s b t, P s → f s b = some t → P t) {l : List β} {s t : σ} (hs : P s)
    (h : l.foldlM f s = some t) : P t := by
  induction l generalizing s with
  | nil =>
    obtain rfl := Option.some.inj h
    exact hs
  | cons b l ih =>
    obtain ⟨between, hbetween, hrest⟩ := Option.bind_eq_some_iff.mp h
    exact ih (hstep s b between hs hbetween) hrest

end TagCatalog
