import Mathlib.Order.Defs.Unbundled
import RosAudit.Fault

/-!
# Running jobs

A `Job` keeps the state it has reached when it stops at a fault, so what a job does is read off
`Job.exec` : the result and the state it leaves. The `exec_*` lemmas compute it for each way of
putting jobs together, and `exec_bind_ok` takes a run that succeeded apart.

`Job.Within R` says that a job moves its state only along `R`, whether it succeeds or stops,
`Job.Bounded R E` also that it stops only at faults with `E`, and `Job.Alongside S` that two jobs
give the same from states related by `S` and leave related ones. A job that is alongside itself is
`Job.Blind S`.
-/

namespace RosAudit

open List

theorem of_ite {α : Type} {P : α → Prop} {c : Prop} [Decidable c] {a b : α} (ha : P a) (hb : P b) :
    P (if c then a else b) := by
  split
  · exact ha
  · exact hb

/-! ## Results -/

section Results

variable {ε α β : Type} {r : Except ε α} {f : α → Except ε β} {l : List α} {bs : List β} {e : ε}

theorem ok_bind (a : α) (f : α → Except ε β) : (Except.ok a >>= f) = f a :=
  rfl

theorem pure_eq_ok (a : α) : (pure a : Except ε α) = .ok a :=
  rfl

theorem bind_eq_ok {b} : (r >>= f) = .ok b ↔ ∃ a, r = .ok a ∧ f a = .ok b := by
  cases r with
  | error e => simp [bind, Except.bind]
  | ok a => simp [ok_bind]

theorem mapM_cons_ok {a} :
    (a :: l).mapM f = .ok bs ↔ ∃ b bs', f a = .ok b ∧ l.mapM f = .ok bs' ∧ b :: bs' = bs := by
  rw [mapM_cons]
  cases f a with
  | error e => simp [bind, Except.bind]
  | ok b => cases l.mapM f <;> simp [bind, Except.bind, pure, Except.pure]

theorem mem_mapM_ok (h : l.mapM f = .ok bs) (b : β) : b ∈ bs ↔ ∃ a ∈ l, f a = .ok b := by
  induction l generalizing bs with
  | nil =>
    cases h
    simp
  | cons a l ih =>
    obtain ⟨b', bs, ha, hl, rfl⟩ := mapM_cons_ok.mp h
    simp [ih hl, ha, eq_comm]

theorem forall_of_mapM_ok (h : l.mapM f = .ok bs) : ∀ a ∈ l, ∃ b, f a = .ok b := by
  induction l generalizing bs with
  | nil => simp
  | cons a l ih =>
    obtain ⟨b, bs, ha, hl, rfl⟩ := mapM_cons_ok.mp h
    simpa [ha] using ih hl

theorem mapM_eq_ok_map {g} (h : ∀ a ∈ l, f a = .ok (g a)) : l.mapM f = .ok (l.map g) := by
  induction l with
  | nil => rfl
  | cons a l ih =>
    rw [forall_mem_cons] at h
    exact mapM_cons_ok.mpr ⟨_, _, h.1, ih h.2, rfl⟩

theorem exists_mapM_error_iff : (∃ e, l.mapM f = .error e) ↔ ∃ a ∈ l, ∃ e, f a = .error e := by
  induction l with
  | nil => simp [pure, Except.pure]
  | cons a l ih =>
    cases ha : f a with
    | error e => simp [ha, bind, Except.bind]
    | ok b => cases hl : l.mapM f <;> simp_all [bind, Except.bind, pure, Except.pure]

theorem map_eq_ok {f : α → β} {b : β} : r.map f = .ok b ↔ ∃ a, r = .ok a ∧ f a = b := by
  cases r <;> simp [Except.map]

theorem map_of_mapM_ok {γ : Type} {g : α → γ} {g' : β → γ}
    (hg : ∀ a b, f a = .ok b → g' b = g a) (h : l.mapM f = .ok bs) : bs.map g' = l.map g := by
  induction l generalizing bs with
  | nil =>
    cases h
    rfl
  | cons a l ih =>
    obtain ⟨b, bs, ha, hl, rfl⟩ := mapM_cons_ok.mp h
    rw [map_cons, map_cons, hg a b ha, ih hl]

theorem map_eq_error {f : α → β} : r.map f = .error e ↔ r = .error e := by
  cases r <;> simp [Except.map]

end Results

/-- A property that computations inherit from those that they are put together from. -/
structure Chains (m : Type → Type) [Monad m] (P : ∀ α, m α → Prop) : Prop where
  pure {α : Type} (a : α) : P α (pure a)
  bind {α β : Type} {j : m α} {f : α → m β} (hj : P α j) (hf : ∀ a, P β (f a)) : P β (j >>= f)

namespace Chains

variable {m : Type → Type} [Monad m] {P : ∀ α, m α → Prop} (h : Chains m P) {α β : Type}

include h

theorem mapM [LawfulMonad m] {f : α → m β} :
    ∀ {l : List α}, (∀ a ∈ l, P β (f a)) → P _ (l.mapM f)
  | [], _ => h.pure []
  | a :: l, hf => by
    rw [forall_mem_cons] at hf
    rw [mapM_cons]
    exact h.bind hf.1 fun b => h.bind (mapM hf.2) fun bs => h.pure (b :: bs)

theorem foldlM {f : β → α → m β} (hf : ∀ b a, P β (f b a)) : ∀ (l : List α) b, P β (l.foldlM f b)
  | [], b => h.pure b
  | a :: l, b => h.bind (hf b a) fun b' => foldlM hf l b'

theorem forIn {f : α → β → m (ForInStep β)} :
    ∀ {l : List α}, (∀ a ∈ l, ∀ b, P _ (f a b)) → ∀ b, P β (forIn l b f)
  | [], _, b => h.pure b
  | a :: l, hf, b => by
    rw [forIn_cons]
    refine h.bind (hf a mem_cons_self b) fun r => ?_
    cases r with
    | done b' => exact h.pure b'
    | yield b' => exact forIn (fun a' ha' => hf a' (mem_cons_of_mem a ha')) b'

end Chains

def Fails {α : Type} (E : Fault → Prop) (r : Result α) : Prop := ∀ f, r = .error f → E f

section Fails

variable {α β : Type} {E : Fault → Prop}

theorem fails_pure (a : α) : Fails E (pure a : Result α) := by
  intro f h
  cases h

theorem fails_throw {f} (h : E f) : Fails E (throw f : Result α) := by
  intro f' hf
  cases hf
  exact h

theorem Fails.bind {r : Result α} {f : α → Result β} (hr : Fails E r) (hf : ∀ a, Fails E (f a)) :
    Fails E (r >>= f) := by
  intro e h
  cases r with
  | error e' =>
    cases h
    exact hr e rfl
  | ok a => exact hf a e h

theorem chains_fails : Chains Result fun _ => Fails E := ⟨fails_pure, Fails.bind⟩

theorem exists_of_mapM_error {f : α → Result β} {l : List α} {e : Fault} (h : l.mapM f = .error e) :
    ∃ a ∈ l, f a = .error e :=
  (chains_fails (E := fun e => ∃ a ∈ l, f a = .error e)).mapM (fun a ha _ he => ⟨a, ha, he⟩) e h

end Fails

namespace Job

variable {σ α β : Type} {j k : Job σ α} {f : α → Job σ β} {a : α} {r : Result α} {s s' t : σ}
  {c : Prop} [Decidable c]

/-! ## What a run gives -/

@[simp] theorem exec_pure (a : α) (s : σ) : (pure a : Job σ α).exec s = (.ok a, s) :=
  rfl

@[simp] theorem exec_throw (f : Fault) (s : σ) : (throw f : Job σ α).exec s = (.error f, s) :=
  rfl

@[simp] theorem exec_get (s : σ) : (get : Job σ σ).exec s = (.ok s, s) :=
  rfl

@[simp] theorem exec_set (s s' : σ) : (set s' : Job σ PUnit).exec s = (.ok ⟨⟩, s') :=
  rfl

@[simp] theorem exec_modify (f : σ → σ) (s : σ) : (modify f : Job σ PUnit).exec s = (.ok ⟨⟩, f s) :=
  rfl

@[simp] theorem exec_ofResult (r : Result α) (s : σ) : (ofResult r : Job σ α).exec s = (r, s) := by
  cases r <;> rfl

@[simp] theorem exec_attempt (j : Job σ α) (s : σ) :
    (attempt j).exec s = (.ok (j.exec s).1, (j.exec s).2) :=
  rfl

theorem exec_bind (j : Job σ α) (f : α → Job σ β) (s : σ) :
    (j >>= f).exec s = match j.exec s with
      | (.ok a, s') => (f a).exec s'
      | (.error e, s') => (.error e, s') := by
  change StateT.run (ExceptT.run (j >>= f)) s = _
  rw [ExceptT.run_bind, StateT.run_bind]
  unfold exec
  rcases h : StateT.run (ExceptT.run j) s with ⟨_ | _, _⟩ <;> rfl

theorem exec_bind_of_ok (h : j.exec s = (.ok a, s')) : (j >>= f).exec s = (f a).exec s' := by
  rw [exec_bind, h]

theorem exec_bind_of_error {e} (h : j.exec s = (.error e, s')) :
    (j >>= f).exec s = (.error e, s') := by
  rw [exec_bind, h]

/-- A run of two jobs that succeeded is a run of the first and then one of the second. -/
theorem exec_bind_ok {s s'' b} :
    (j >>= f).exec s = (.ok b, s'') ↔
      ∃ a s', j.exec s = (.ok a, s') ∧ (f a).exec s' = (.ok b, s'') := by
  rw [exec_bind]
  constructor
  · intro h
    rcases hj : j.exec s with ⟨_ | a, s'⟩
    · simp [hj] at h
    · exact ⟨a, s', rfl, by simpa [hj] using h⟩
  · rintro ⟨a, s', hj, hf⟩
    rwa [hj]

theorem exec_ofResult_bind_ok {r b} :
    (ofResult r >>= f).exec s = (.ok b, s') ↔ ∃ a, r = .ok a ∧ (f a).exec s = (.ok b, s') := by
  rw [exec_bind, exec_ofResult]
  cases r <;> simp

theorem exec_map (f : α → β) (j : Job σ α) (s : σ) :
    (f <$> j).exec s = match j.exec s with
      | (.ok a, s') => (.ok (f a), s')
      | (.error e, s') => (.error e, s') := by
  rw [← bind_pure_comp, exec_bind]
  rfl

theorem exec_bind_pure (j : Job σ α) (f : α → β) (s : σ) :
    (j >>= fun a => pure (f a)).exec s = ((j.exec s).1.map f, (j.exec s).2) := by
  rw [exec_bind]
  rcases j.exec s with ⟨_ | a, s'⟩ <;> rfl

theorem exec_bind_eq_of_eq (h : j.exec s = k.exec s) : (j >>= f).exec s = (k >>= f).exec s := by
  rw [exec_bind, exec_bind, h]

/-- Two runs that begin in the same way are the same, or `P` holds, if that is so of their second
halves. -/
theorem exec_bind_eq_or {f g : α → Job σ β} {P : Prop}
    (h : ∀ a s', j.exec s = (.ok a, s') → (f a).exec s' = (g a).exec s' ∨ P) :
    (j >>= f).exec s = (j >>= g).exec s ∨ P := by
  rw [exec_bind, exec_bind]
  rcases hj : j.exec s with ⟨e | a, s'⟩
  · exact .inl rfl
  · exact h a s' hj

/-! ## Moving along a relation -/

/-- The job moves its state only along `R`. -/
def Within (R : σ → σ → Prop) (j : Job σ α) : Prop :=
  ∀ s, R s (j.exec s).2

section Within

variable {R : σ → σ → Prop}

theorem Within.of_exec (h : Within R j) (hr : j.exec s = (r, s')) : R s s' := by
  have := h s
  rwa [hr] at this

theorem Within.attempt (h : Within R j) : Within R (Job.attempt j) :=
  h

theorem within_modify {f} (h : ∀ s, R s (f s)) : Within R (modify f : Job σ PUnit) :=
  h

theorem Within.mono {R'} (h : Within R j) (hR : ∀ s s', R s s' → R' s s') : Within R' j :=
  fun s => hR _ _ (h s)

variable [IsPreorder σ R]

theorem within_pure (a : α) : Within R (pure a : Job σ α) :=
  fun s => refl_of R s

theorem within_throw (f : Fault) : Within R (throw f : Job σ α) :=
  fun s => refl_of R s

theorem within_get : Within R (get : Job σ σ) :=
  fun s => refl_of R s

theorem within_ofResult (r : Result α) : Within R (ofResult r : Job σ α) := by
  intro s
  rw [exec_ofResult]
  exact refl_of R s

/-- A job that reads its state, puts a related one in its place and goes on. -/
theorem within_set (hs : R s s') (hj : Within R j) :
    R s (((set s' : Job σ PUnit) >>= fun _ => j).exec s).2 :=
  trans_of R hs (hj s')

theorem Within.bind (hj : Within R j) (hf : ∀ a, Within R (f a)) : Within R (j >>= f) := by
  intro s
  rw [exec_bind]
  have h := hj s
  rcases hs : j.exec s with ⟨_ | a, s'⟩ <;> rw [hs] at h
  · exact h
  · exact trans_of R h (hf a s')

theorem chains_within : Chains (Job σ) fun _ => Within R := ⟨within_pure, Within.bind⟩

end Within

/-! ## What a value satisfies -/

/-- Every value that the job gives satisfies `Q`. -/
def Returns (Q : α → Prop) (j : Job σ α) : Prop :=
  ∀ s a s', j.exec s = (.ok a, s') → Q a

section Returns

variable {Q : α → Prop}

theorem returns_true (j : Job σ α) : Returns (fun _ => True) j :=
  fun _ _ _ _ => trivial

theorem returns_pure {a} (h : Q a) : Returns Q (pure a : Job σ α) := by
  intro s a' s' ha
  simp only [exec_pure, Prod.mk.injEq, Except.ok.injEq] at ha
  rwa [← ha.1]

theorem returns_throw (f : Fault) : Returns Q (throw f : Job σ α) := by
  intro s a s' h
  simp at h

theorem returns_bind {P : β → Prop} {j : Job σ β} {f : β → Job σ α} (hj : Returns P j)
    (hf : ∀ b, P b → Returns Q (f b)) : Returns Q (j >>= f) := by
  intro s a s' h
  obtain ⟨b, s₁, hb, ha⟩ := exec_bind_ok.mp h
  exact hf b (hj s b s₁ hb) s₁ a s' ha

theorem Returns.after {j : Job σ β} {f : β → Job σ α} (hf : ∀ b, Returns Q (f b)) :
    Returns Q (j >>= f) :=
  returns_bind (returns_true j) fun b _ => hf b

theorem returns_foldlM {f : α → β → Job σ α} (hf : ∀ a b, Q a → Returns Q (f a b)) :
    ∀ (l : List β) {a : α}, Q a → Returns Q (l.foldlM f a)
  | [], _, ha => returns_pure ha
  | b :: l, a, ha => returns_bind (hf a b ha) fun _ ha' => returns_foldlM hf l ha'

end Returns

/-! ## What a fault satisfies -/

def Throws (E : Fault → Prop) (j : Job σ α) : Prop :=
  ∀ s f s', j.exec s = (.error f, s') → E f

section Throws

variable {E : Fault → Prop}

theorem throws_pure (a : α) : Throws E (pure a : Job σ α) := by
  intro s f s' h
  cases h

theorem throws_throw {f} (h : E f) : Throws E (throw f : Job σ α) := by
  intro s f' s' hf
  cases hf
  exact h

theorem throws_get : Throws E (get : Job σ σ) := by
  intro s f s' h
  cases h

theorem throws_modify (g : σ → σ) : Throws E (modify g : Job σ PUnit) := by
  intro s f s' h
  cases h

theorem throws_ofResult (h : Fails E r) : Throws E (ofResult r : Job σ α) := by
  intro s f s' hf
  rw [exec_ofResult, Prod.mk.injEq] at hf
  exact h f hf.1

theorem Throws.bind {j : Job σ β} {f : β → Job σ α} (hj : Throws E j) (hf : ∀ b, Throws E (f b)) :
    Throws E (j >>= f) := by
  intro s e s' h
  rw [exec_bind] at h
  rcases hjs : j.exec s with ⟨e' | b, s₁⟩ <;> rw [hjs] at h
  · cases h
    exact hj s e s' hjs
  · exact hf b s₁ e s' h

theorem chains_throws : Chains (Job σ) fun _ => Throws E := ⟨throws_pure, Throws.bind⟩

end Throws

/-! ## What a job does in all -/

/-- The job moves its state only along `R`, and stops only at faults with `E`. -/
structure Bounded (R : σ → σ → Prop) (E : Fault → Prop) (j : Job σ α) : Prop where
  within : Within R j
  throws : Throws E j

section Bounded

variable {R : σ → σ → Prop} {E : Fault → Prop}

theorem bounded_modify {f} (h : ∀ s, R s (f s)) : Bounded R E (modify f : Job σ PUnit) :=
  ⟨within_modify h, throws_modify f⟩

variable [IsPreorder σ R]

theorem bounded_pure (a : α) : Bounded R E (pure a : Job σ α) :=
  ⟨within_pure a, throws_pure a⟩

theorem bounded_throw {f} (h : E f) : Bounded R E (throw f : Job σ α) :=
  ⟨within_throw f, throws_throw h⟩

theorem bounded_get : Bounded R E (get : Job σ σ) :=
  ⟨within_get, throws_get⟩

theorem bounded_ofResult (h : Fails E r) : Bounded R E (ofResult r : Job σ α) :=
  ⟨within_ofResult r, throws_ofResult h⟩

theorem Bounded.bind (hj : Bounded R E j) (hf : ∀ a, Bounded R E (f a)) : Bounded R E (j >>= f) :=
  ⟨hj.within.bind fun a => (hf a).within, hj.throws.bind fun a => (hf a).throws⟩

theorem chains_bounded : Chains (Job σ) fun _ => Bounded R E := ⟨bounded_pure, Bounded.bind⟩

end Bounded

/-! ## Keeping an invariant -/

/-- What holds before still holds afterwards. -/
def Keeping (I : σ → Prop) (s s' : σ) : Prop := I s → I s'

instance (I : σ → Prop) : IsPreorder σ (Keeping I) where
  refl _ h := h
  trans _ _ _ h h' hs := h' (h hs)

theorem within_keeping_get {I : σ → Prop} {f : σ → Job σ α}
    (hf : ∀ s, I s → I ((f s).exec s).2) : Within (Keeping I) (get >>= f) :=
  fun s h => hf s h

/-! ## What holds before and afterwards -/

def Meets (P : σ → Prop) (Q : α → σ → Prop) (E : Fault → σ → Prop) (j : Job σ α) : Prop :=
  ∀ s, P s → match j.exec s with
    | (.ok a, s') => Q a s'
    | (.error f, s') => E f s'

section Meets

variable {P : σ → Prop} {Q : α → σ → Prop} {E : Fault → σ → Prop}

theorem meets_of (hQ : ∀ s a s', P s → j.exec s = (.ok a, s') → Q a s')
    (hE : ∀ s f s', P s → j.exec s = (.error f, s') → E f s') : Meets P Q E j := by
  intro s hs
  rcases hj : j.exec s with ⟨f | a, s'⟩
  · exact hE s f s' hs hj
  · exact hQ s a s' hs hj

section

variable (h : Meets P Q E j)
include h

theorem Meets.of_ok (hs : P s) (hj : j.exec s = (.ok a, s')) : Q a s' := by
  have := h s hs
  rwa [hj] at this

theorem Meets.of_error {f} (hs : P s) (hj : j.exec s = (.error f, s')) : E f s' := by
  have := h s hs
  rwa [hj] at this

theorem Meets.pre {P'} (hP : ∀ s, P' s → P s) : Meets P' Q E j :=
  fun s hs => h s (hP s hs)

variable {E' : Fault → σ → Prop}

theorem Meets.stop (hE : ∀ f s, E f s → E' f s) : Meets P Q E' j :=
  meets_of (fun _ _ _ => h.of_ok) fun _ f s hs hj => hE f s (h.of_error hs hj)

theorem Meets.post {Q'} (hQ : ∀ a s, Q a s → Q' a s) : Meets P Q' E j :=
  meets_of (fun _ a s hs hj => hQ a s (h.of_ok hs hj)) fun _ _ _ => h.of_error

theorem Meets.returning {V} (hv : Returns V j) : Meets P (fun a s => Q a s ∧ V a) E j :=
  meets_of (fun s a s' hs hj => ⟨h.of_ok hs hj, hv s a s' hj⟩) fun _ _ _ => h.of_error

theorem Meets.throwing {T} (ht : Throws T j) : Meets P Q (fun f s => E f s ∧ T f) j :=
  meets_of (fun _ _ _ => h.of_ok) fun s f s' hs hj => ⟨h.of_error hs hj, ht s f s' hj⟩

end

theorem meets_pure (h : ∀ s, P s → Q a s) : Meets P Q E (pure a : Job σ α) :=
  h

theorem meets_throw {f} (h : ∀ s, P s → E f s) : Meets P Q E (throw f : Job σ α) :=
  h

theorem meets_ofResult (hQ : ∀ s a, P s → r = .ok a → Q a s) (hE : ∀ s f, P s → E f s) :
    Meets P Q E (ofResult r : Job σ α) := by
  intro s hs
  cases r with
  | error f => exact hE s f hs
  | ok a => exact hQ s a hs rfl

theorem meets_get {f} (h : ∀ s, P s → Meets (· = s) Q E (f s)) : Meets P Q E (get >>= f) :=
  fun s hs => h s hs s rfl

theorem Meets.bind {Q'} (hj : Meets P Q E j) (hf : ∀ a, Meets (Q a) Q' E (f a)) :
    Meets P Q' E (j >>= f) := by
  intro s hs
  have h := hj s hs
  rw [exec_bind]
  rcases hjs : j.exec s with ⟨e | a, s'⟩ <;> rw [hjs] at h
  · exact h
  · exact hf a s' h

theorem Within.meets {R V} (hj : Within R j) (hv : Returns V j)
    (hQ : ∀ s s' a, P s → R s s' → V a → Q a s') (hE : ∀ s s' f, P s → R s s' → E f s') :
    Meets P Q E j :=
  meets_of (fun s a s' hs h => hQ s s' a hs (hj.of_exec h) (hv s a s' h))
    fun s f s' hs h => hE s s' f hs (hj.of_exec h)

theorem meets_keeping_iff {I} : Meets I (fun _ => I) (fun _ => I) j ↔ Within (Keeping I) j := by
  constructor <;>
  · intro h s hs
    have := h s hs
    rcases hj : j.exec s with ⟨f | a, s'⟩ <;> rw [hj] at this <;> exact this

theorem meets_mapM_append {I : List β → σ → Prop} : ∀ {l : List α},
    (∀ a ∈ l, ∀ bs, Meets (I bs) (fun b => I (bs ++ [b])) E (f a)) →
    ∀ bs, Meets (I bs) (fun bs' => I (bs ++ bs')) E (l.mapM f)
  | [], _, bs => by
    rw [mapM_nil]
    exact meets_pure fun s hs => by rwa [append_nil]
  | a :: l, hf, bs => by
    rw [mapM_cons]
    refine (hf a mem_cons_self bs).bind fun b => ?_
    have hrest := meets_mapM_append fun a' ha' => hf a' (mem_cons_of_mem a ha')
    refine (hrest (bs ++ [b])).bind fun bs' => meets_pure fun s hs => ?_
    rwa [append_assoc] at hs

theorem meets_mapM {I : List β → σ → Prop} {l : List α}
    (hf : ∀ a ∈ l, ∀ bs, Meets (I bs) (fun b => I (bs ++ [b])) E (f a)) :
    Meets (I []) I E (l.mapM f) :=
  meets_mapM_append hf []

/-- A loop that never ends early, with an invariant of what is still to be done. -/
theorem meets_forIn {I : List α → σ → Prop} {f : α → β → Job σ (ForInStep β)}
    (hf : ∀ a l b, Meets (I (a :: l)) (fun r s => (∃ b', r = .yield b') ∧ I l s) E (f a b)) :
    ∀ {l b}, Meets (I l) (fun _ => I []) E (forIn l b f)
  | [], b => meets_pure fun s hs => hs
  | a :: l, b => by
    rw [forIn_cons]
    refine (hf a l b).bind fun r => ?_
    cases r with
    | done b' =>
      intro s hs
      obtain ⟨⟨b'', hb''⟩, -⟩ := hs
      cases hb''
    | yield b' => exact (meets_forIn hf).pre fun s hs => hs.2

end Meets

/-! ## Values under an invariant -/

/-- The job keeps `I`, however it ends, and gives only values with `Q` where `I` holds. -/
def Yields (I : σ → Prop) (Q : α → Prop) (j : Job σ α) : Prop :=
  Meets I (fun a s => I s ∧ Q a) (fun _ => I) j

section Yields

variable {I : σ → Prop} {Q : α → Prop}

theorem Yields.keeping (h : Yields I Q j) : Within (Keeping I) j :=
  meets_keeping_iff.mp (h.post fun _ _ hs => hs.1)

theorem Within.yields (hj : Within (Keeping I) j) (hQ : Returns Q j) : Yields I Q j :=
  hj.meets hQ (fun _ _ _ hs h ha => ⟨h hs, ha⟩) fun _ _ _ hs h => h hs

theorem yields_pure (h : Q a) : Yields I Q (pure a : Job σ α) :=
  meets_pure fun _ hs => ⟨hs, h⟩

theorem yields_ofResult (h : ∀ a, r = .ok a → Q a) : Yields I Q (ofResult r : Job σ α) :=
  meets_ofResult (fun _ a hs ha => ⟨hs, h a ha⟩) fun _ _ hs => hs

theorem yields_get {f} (hf : ∀ s, I s → Yields I Q (f s)) : Yields I Q (get >>= f) :=
  fun s hs => hf s hs s hs

theorem Yields.bind {P : β → Prop} {j : Job σ β} {f : β → Job σ α} (hj : Yields I P j)
    (hf : ∀ b, P b → Yields I Q (f b)) : Yields I Q (j >>= f) :=
  Meets.bind hj fun b s hs => hf b hs.2 s hs.1

theorem Yields.after {j : Job σ β} {f : β → Job σ α} (hj : Within (Keeping I) j)
    (hf : ∀ b, Yields I Q (f b)) : Yields I Q (j >>= f) :=
  (hj.yields (returns_true j)).bind fun b _ => hf b

theorem yields_foldlM {f : α → β → Job σ α} (hf : ∀ a b, Q a → Yields I Q (f a b)) :
    ∀ (l : List β) {a : α}, Q a → Yields I Q (l.foldlM f a)
  | [], _, ha => yields_pure ha
  | b :: l, a, ha => (hf a b ha).bind fun _ ha' => yields_foldlM hf l ha'

end Yields

/-! ## Runs that give the same from many states -/

def Gives (P : σ → Prop) (j : Job σ α) (r : Result α) (Q : σ → Prop) : Prop :=
  ∀ s, P s → (j.exec s).1 = r ∧ Q (j.exec s).2

section Gives

variable {P Q Q' : σ → Prop}

theorem gives_ofResult (r : Result α) : Gives P (ofResult r : Job σ α) r P := by
  intro s hs
  rw [exec_ofResult]
  exact ⟨rfl, hs⟩

theorem gives_modify {f} (h : ∀ s, P s → Q (f s)) : Gives P (modify f : Job σ PUnit) (.ok ⟨⟩) Q :=
  fun s hs => ⟨rfl, h s hs⟩

theorem gives_get {f} (hf : ∀ s, P s → f s = j) (hj : Gives P j r Q) : Gives P (get >>= f) r Q := by
  intro s hs
  have h := hj s hs
  rwa [← hf s hs] at h

theorem Gives.bind {r} (hj : Gives P j (.ok a) Q) (hf : Gives Q (f a) r Q') :
    Gives P (j >>= f) r Q' := by
  intro s hs
  have h := hj s hs
  rcases hjs : j.exec s with ⟨r', s'⟩
  rw [hjs] at h
  obtain ⟨rfl, hQ⟩ := h
  rw [exec_bind_of_ok hjs]
  exact hf s' hQ

theorem Gives.seq {k : Job σ β} {r : Result β} (hj : Gives P j (.ok a) Q) (hk : Gives Q k r Q') :
    Gives P (j >>= fun _ => k) r Q' :=
  hj.bind hk

theorem Gives.bind_error {e} (hj : Gives P j (.error e) Q) : Gives P (j >>= f) (.error e) Q := by
  intro s hs
  have h := hj s hs
  rcases hjs : j.exec s with ⟨r', s'⟩
  rw [hjs] at h
  obtain ⟨rfl, hQ⟩ := h
  rw [exec_bind_of_error hjs]
  exact ⟨rfl, hQ⟩

theorem Gives.attempt (hj : Gives P j r Q) : Gives P (Job.attempt j) (.ok r) Q := by
  intro s hs
  rw [exec_attempt, (hj s hs).1]
  exact ⟨rfl, (hj s hs).2⟩

end Gives

/-! ## Two runs side by side -/

/-- From `s` and `t` the two jobs give the same result, and leave states related by `S`. -/
def Matching (S : σ → σ → Prop) (j k : Job σ α) (s t : σ) : Prop :=
  (j.exec s).1 = (k.exec t).1 ∧ S (j.exec s).2 (k.exec t).2

/-- From related states the two jobs give the same result and leave related states. -/
def Alongside (S : σ → σ → Prop) (j k : Job σ α) : Prop := ∀ s t, S s t → Matching S j k s t

section Alongside

variable {S : σ → σ → Prop}

theorem Matching.bind {f g : α → Job σ β} (hj : Matching S j k s t)
    (hf : ∀ a, (j.exec s).1 = .ok a → Alongside S (f a) (g a)) :
    Matching S (j >>= f) (k >>= g) s t := by
  obtain ⟨hres, hS⟩ := hj
  unfold Matching
  rw [exec_bind, exec_bind]
  rcases hjs : j.exec s with ⟨r, s'⟩
  rcases hkt : k.exec t with ⟨r', t'⟩
  rw [hjs, hkt] at hres hS
  rw [hjs] at hf
  obtain rfl : r = r' := hres
  cases r with
  | error e => exact ⟨rfl, hS⟩
  | ok a => exact hf a rfl s' t' hS

theorem Matching.after {f g : α → Job σ β} (hj : j.exec s = (.ok a, s'))
    (h : Matching S (f a) (g a) s' s') : Matching S (j >>= f) (j >>= g) s s := by
  unfold Matching
  rwa [exec_bind_of_ok hj, exec_bind_of_ok hj]

theorem Matching.attempt (hj : Matching S j k s t) :
    Matching S (Job.attempt j) (Job.attempt k) s t := by
  obtain ⟨hres, hS⟩ := hj
  unfold Matching
  rw [exec_attempt, hres]
  exact ⟨rfl, hS⟩

theorem Alongside.bind {f g : α → Job σ β} (hj : Alongside S j k)
    (hf : ∀ a, Alongside S (f a) (g a)) : Alongside S (j >>= f) (k >>= g) :=
  fun s t h => (hj s t h).bind fun a _ => hf a

theorem alongside_modify {f g} (h : ∀ s t, S s t → S (f s) (g t)) :
    Alongside S (modify f) (modify g : Job σ PUnit) :=
  fun s t hs => ⟨rfl, h s t hs⟩

theorem matching_set {s t s' t'} (h : S s' t') (hj : Alongside S j k) :
    Matching S ((set s' : Job σ PUnit) >>= fun _ => j)
      ((set t' : Job σ PUnit) >>= fun _ => k) s t :=
  hj s' t' h

def Blind (S : σ → σ → Prop) (j : Job σ α) : Prop := Alongside S j j

theorem Blind.exec {r} (h : Blind S j) (hst : S s t) (hs : j.exec s = (r, s')) :
    ∃ t', j.exec t = (r, t') ∧ S s' t' := by
  obtain ⟨hres, hS⟩ := h s t hst
  rw [hs] at hres hS
  exact ⟨(j.exec t).2, Prod.ext hres.symm rfl, hS⟩

theorem blind_pure (a : α) : Blind S (pure a : Job σ α) :=
  fun _ _ h => ⟨rfl, h⟩

theorem blind_throw (f : Fault) : Blind S (throw f : Job σ α) :=
  fun _ _ h => ⟨rfl, h⟩

theorem blind_ofResult (r : Result α) : Blind S (ofResult r : Job σ α) := by
  intro s t h
  unfold Matching
  rw [exec_ofResult, exec_ofResult]
  exact ⟨rfl, h⟩

theorem blind_modify {f} (h : ∀ s t, S s t → S (f s) (f t)) : Blind S (modify f : Job σ PUnit) :=
  alongside_modify h

theorem Blind.bind (hj : Blind S j) (hf : ∀ a, Blind S (f a)) : Blind S (j >>= f) :=
  Alongside.bind hj hf

theorem blind_get {f : σ → Job σ α} (hf : ∀ s t, S s t → f s = f t) (h : ∀ s, Blind S (f s)) :
    Blind S (get >>= f) := by
  intro s t hs
  have hnext := h s s t hs
  unfold Matching at hnext ⊢
  rwa [exec_bind_of_ok (exec_get t), ← hf s t hs]

theorem chains_blind : Chains (Job σ) fun _ => Blind S := ⟨blind_pure, Blind.bind⟩

/-- Twice the same state, reached from `s₀` along `R`. -/
def Tied (R : σ → σ → Prop) (s₀ s t : σ) : Prop := t = s ∧ R s₀ s

theorem Within.blind {R} [IsPreorder σ R] (h : Within R j) (s₀ : σ) : Blind (Tied R s₀) j := by
  rintro _ s ⟨rfl, hs⟩
  exact ⟨rfl, rfl, trans_of R hs (h s)⟩

theorem within_of_blind {R} [IsPreorder σ R] (h : ∀ s₀, Blind (Tied R s₀) j) : Within R j :=
  fun s => (h s s s ⟨rfl, refl_of R s⟩).2.2

end Alongside

/-! ## Results that do not depend on the order -/

theorem exec_mapM_fst (hf : ∀ a b s, ((f a).exec ((f b).exec s).2).1 = ((f a).exec s).1) :
    ∀ (l : List α) (s : σ), ((l.mapM f).exec s).1 = l.mapM fun a => ((f a).exec s).1
  | [], s => rfl
  | a :: l, s => by
    have ih := exec_mapM_fst hf l ((f a).exec s).2
    simp only [hf _ a s] at ih
    rw [mapM_cons, mapM_cons, exec_bind, ← ih]
    rcases (f a).exec s with ⟨_ | b, s'⟩
    · rfl
    · simp only [exec_bind_pure]
      rfl

end Job

end RosAudit
