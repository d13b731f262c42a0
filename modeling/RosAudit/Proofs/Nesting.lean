import Mathlib.Algebra.Order.BigOperators.Group.Finset

/-!
# Nested work

Launch files include launch files, and build scripts add the scripts of subfolders. While one is
worked through, others inside it are, and a limit says how deep. `Trail step p ks q` says that the
work at `p` comes to `q`, inside of what has the keys `ks`.

The limit is not what the work is about, so `NestsWithin` and `RecursWithin` speak of all limits at
once : the work goes at most `d` deep, and it is in nothing more than `k` times. Where only finitely
many things can be gone into, one holds for some number exactly if the other does
(`exists_nestsWithin_iff`).
-/

namespace RosAudit

open List

variable {σ κ α : Type}

theorem length_le_of_count_le [DecidableEq κ] {k} {keys ks : List κ} (hkeys : ks ⊆ keys)
    (hcount : ∀ x, ks.count x ≤ k) : ks.length ≤ k * keys.length := by
  have hsub : ks.toFinset ⊆ keys.toFinset := fun x hx =>
    mem_toFinset.mpr (hkeys (mem_toFinset.mp hx))
  have hcard : ks.toFinset.card ≤ keys.length :=
    (Finset.card_le_card hsub).trans keys.toFinset_card_le
  rw [← sum_toFinset_count_eq_length, Nat.mul_comm]
  exact (Finset.sum_le_card_nsmul _ _ k fun x _ => hcount x).trans (Nat.mul_le_mul_right k hcard)

/-- The work at `p` comes to `q`, inside of what has the keys `ks`, the innermost first. A step past
something has no key. -/
inductive Trail (step : σ → Option κ → σ → Prop) (p : σ) : List κ → σ → Prop
  | start : Trail step p [] p
  | past {ks : List κ} {q r : σ} (h : Trail step p ks q) (hstep : step q none r) : Trail step p ks r
  | into {ks : List κ} {k : κ} {q r : σ} (h : Trail step p ks q) (hstep : step q (some k) r) :
      Trail step p (k :: ks) r

variable {step : σ → Option κ → σ → Prop} {start : Nat → σ}

namespace Trail

variable {p p' q : σ} {ks : List κ} {k : κ}

theorem head_past (hstep : step p none p') (h : Trail step p' ks q) : Trail step p ks q := by
  induction h with
  | start => exact .past .start hstep
  | past _ hnext ih => exact .past ih hnext
  | into _ hnext ih => exact .into ih hnext

theorem head_into (hstep : step p (some k) p') (h : Trail step p' ks q) :
    Trail step p (ks ++ [k]) q := by
  induction h with
  | start => exact .into .start hstep
  | past _ hnext ih => exact .past ih hnext
  | into _ hnext ih => exact .into ih hnext

theorem subset {I : σ → Prop} {keys : List κ} (hkeep : ∀ p l q, I p → step p l q → I q)
    (hkey : ∀ p k q, I p → step p (some k) q → k ∈ keys) (hp : I p) (h : Trail step p ks q) :
    I q ∧ ks ⊆ keys := by
  induction h with
  | start => exact ⟨hp, nil_subset _⟩
  | past _ hstep ih => exact ⟨hkeep _ _ _ ih.1 hstep, ih.2⟩
  | into _ hstep ih =>
    exact ⟨hkeep _ _ _ ih.1 hstep, cons_subset.mpr ⟨hkey _ _ _ ih.1 hstep, ih.2⟩⟩

theorem limit_add_length (limit : σ → Nat) (hpast : ∀ p q, step p none q → limit q = limit p)
    (hinto : ∀ p k q, step p (some k) q → limit p = limit q + 1) (h : Trail step p ks q) :
    limit q + ks.length = limit p := by
  induction h with
  | start => rfl
  | past _ hstep ih => rw [hpast _ _ hstep, ih]
  | into _ hstep ih => rw [← ih, hinto _ _ _ hstep, length_cons, Nat.add_right_comm, Nat.add_assoc]

end Trail

/-- However deep the work may go, it goes at most `d` deep. It begins at `start n` if it may go `n`
deep. -/
def NestsWithin (step : σ → Option κ → σ → Prop) (start : Nat → σ) (d : Nat) : Prop :=
  ∀ n ks q, Trail step (start n) ks q → ks.length ≤ d

/-- However deep the work may go, it is in nothing more than `k` times at once. -/
def RecursWithin [DecidableEq κ] (step : σ → Option κ → σ → Prop) (start : Nat → σ)
    (k : Nat) : Prop :=
  ∀ n ks q, Trail step (start n) ks q → ∀ x, ks.count x ≤ k

section Keys

variable [DecidableEq κ] {keys : List κ}

theorem RecursWithin.nestsWithin {k} (h : RecursWithin step start k)
    (hkeys : ∀ n ks q, Trail step (start n) ks q → ks ⊆ keys) :
    NestsWithin step start (k * keys.length) :=
  fun n ks q htrail => length_le_of_count_le (hkeys n ks q htrail) (h n ks q htrail)

theorem NestsWithin.recursWithin {d} (h : NestsWithin step start d) : RecursWithin step start d :=
  fun n ks q htrail _ => Nat.le_trans count_le_length (h n ks q htrail)

/-- Work that is in nothing twice at once. -/
theorem recursWithin_one_iff :
    RecursWithin step start 1 ↔ ∀ n ks q, Trail step (start n) ks q → ks.Nodup := by
  simp only [RecursWithin, nodup_iff_count]

/-- The work ends, however deep it may go, exactly if it is in nothing again and again without
bound. -/
theorem exists_nestsWithin_iff (hkeys : ∀ n ks q, Trail step (start n) ks q → ks ⊆ keys) :
    (∃ d, NestsWithin step start d) ↔ ∃ k, RecursWithin step start k :=
  ⟨fun ⟨d, h⟩ => ⟨d, h.recursWithin⟩, fun ⟨k, h⟩ => ⟨k * keys.length, h.nestsWithin hkeys⟩⟩

end Keys

/-- If a higher limit makes a difference only where the work goes down to it, then work that goes at
most `d` deep gives the same under every limit from `d` on. -/
theorem NestsWithin.run_eq (run : Nat → α) {d n} (h : NestsWithin step start d)
    (hrun : ∀ n, run (n + 1) = run n ∨ ∃ ks q, Trail step (start (n + 1)) ks q ∧ ks.length = n + 1)
    (hn : d ≤ n) : run n = run d := by
  induction hn with
  | refl => rfl
  | @step n hn ih =>
    rcases hrun n with heq | ⟨ks, q, htrail, hlength⟩
    · rw [heq, ih]
    · have hle := h _ _ _ htrail
      rw [hlength] at hle
      exact absurd hle (Nat.not_le_of_lt (Nat.lt_succ_of_le hn))

theorem NestsWithin.run_eq_run (run : Nat → α) {d m n} (h : NestsWithin step start d)
    (hrun : ∀ n, run (n + 1) = run n ∨ ∃ ks q, Trail step (start (n + 1)) ks q ∧ ks.length = n + 1)
    (hm : d ≤ m) (hn : d ≤ n) : run m = run n :=
  (h.run_eq run hrun hm).trans (h.run_eq run hrun hn).symm

/-- Work that goes at most `d` deep never comes to a limit beyond `d`. -/
theorem NestsWithin.limit_pos {d n ks q} (h : NestsWithin step start d) (limit : σ → Nat)
    (hpast : ∀ p q, step p none q → limit q = limit p)
    (hinto : ∀ p k q, step p (some k) q → limit p = limit q + 1)
    (htrail : Trail step (start n) ks q) (hn : d < limit (start n)) : 0 < limit q := by
  have hsum := htrail.limit_add_length limit hpast hinto
  have hle := h n ks q htrail
  omega

end RosAudit
