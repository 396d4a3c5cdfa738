import Mathlib.Data.Finset.Card
import OsPrograms.Lib.TransitionSystem

/-!
# `wait_for_pid` and `reap_all_children`

The two loops of `common.c` around `waitpid` and `wait`:

```
wait_for_pid:       while (waitpid(pid, &status, 0) == -1)
                        if (errno != EINTR) die_errno("waitpid");
reap_all_children:  while (wait(NULL) > 0) { }
```

Both calls reap a child that has terminated, fail with `ECHILD` when there is no child to wait for,
and fail with `EINTR` when a signal handler runs while they wait. `wait_for_pid` looks at `errno`;
`reap_all_children` ends at either failure.

The model is one loop with two parameters, the children that the call waits for and what the code
does with its result. Children terminate in any order, before and during the calls.

## Main results

- `reap_all_children_iff`: `reap_all_children` leaves no child behind exactly when its last `wait`
  was not interrupted, whereas `wait_for_pid` has always reaped its child when it returns.
- `length_run_le`, `returned_of_stuck`: `reap_all_children` comes to its end.
-/

/-- The children of a process that it has not reaped. -/
structure Children (ι : Type*) where
  /-- All of them. -/
  left : Finset ι
  /-- Those that have terminated. -/
  zombies : Finset ι
  zombies_subset : zombies ⊆ left

namespace Children

variable {ι : Type*} [DecidableEq ι]

/-- A child terminates. -/
def terminate (s : Children ι) (c : ι) (hc : c ∈ s.left) : Children ι where
  left := s.left
  zombies := insert c s.zombies
  zombies_subset := Finset.insert_subset hc s.zombies_subset

/-- A child is reaped. -/
def reap (s : Children ι) (c : ι) : Children ι where
  left := s.left.erase c
  zombies := s.zombies.erase c
  zombies_subset := Finset.erase_subset_erase c s.zombies_subset

end Children

namespace WaitChildren

/-- What a call of `wait` or `waitpid` returns. -/
inductive WaitResult (ι : Type*)
  /-- The process id of a child, which has been reaped. -/
  | child (c : ι)
  /-- -1 with `EINTR`. -/
  | interrupted
  /-- -1 with `ECHILD`. -/
  | noChild
  deriving DecidableEq, Repr

/-- Where the process is. -/
inductive Pc (ι : Type*)
  /-- At the call, or blocked in it. -/
  | wait
  /-- The loop has returned, after a call with this result. -/
  | returned (r : WaitResult ι)
  /-- `die_errno("waitpid")` -/
  | died
  deriving DecidableEq, Repr

/-- The process and its children. -/
structure State (ι : Type*) where
  pc : Pc ι
  children : Children ι

/-- What happens next. -/
inductive Action (ι : Type*)
  /-- A child terminates. -/
  | terminate (c : ι)
  /-- The call returns. -/
  | wait (r : WaitResult ι)
  deriving DecidableEq, Repr

section Model

variable {ι : Type*} [DecidableEq ι]

/-- What a call that waits for the children in `watched` can return. -/
def MayReturn (watched : ι → Bool) (s : Children ι) : WaitResult ι → Prop
  | .child c => watched c ∧ c ∈ s.zombies
  | .interrupted => ∃ c ∈ s.left, watched c
  | .noChild => ∀ c ∈ s.left, watched c = false

instance (watched : ι → Bool) (s : Children ι) (r : WaitResult ι) :
    Decidable (MayReturn watched s r) := by
  cases r <;> unfold MayReturn <;> infer_instance

/-- The children after a call with result `r`. -/
def WaitResult.apply (r : WaitResult ι) (s : Children ι) : Children ι :=
  match r with
  | .child c => s.reap c
  | .interrupted | .noChild => s

/-- A loop around a call that waits for the children in `watched`; `test` is what the code does
with the result. -/
def loop (watched : ι → Bool) (test : WaitResult ι → Pc ι) (children : Children ι) :
    TransitionSystem (State ι) (Action ι) where
  init := { pc := .wait, children := children }
  step
    | s, .terminate c =>
      if h : c ∈ s.children.left ∧ c ∉ s.children.zombies then
        some { s with children := s.children.terminate c h.1 }
      else none
    | s, .wait r =>
      if s.pc = .wait ∧ MayReturn watched s.children r then
        some { pc := test r, children := r.apply s.children }
      else none

/-- `wait(NULL) > 0` -/
def reapTest : WaitResult ι → Pc ι
  | .child _ => .wait
  | r => .returned r

/-- `reap_all_children()` -/
def reapAllChildren (children : Children ι) : TransitionSystem (State ι) (Action ι) :=
  loop (fun _ => true) reapTest children

/-- `waitpid(pid, &status, 0) == -1`, and `errno != EINTR` if so. -/
def waitForPidTest : WaitResult ι → Pc ι
  | .child c => .returned (.child c)
  | .interrupted => .wait
  | .noChild => .died

/-- `wait_for_pid(pid)` -/
def waitForPid (pid : ι) (children : Children ι) : TransitionSystem (State ι) (Action ι) :=
  loop (fun c => c = pid) waitForPidTest children

end Model

section Loop

variable {ι : Type*} [DecidableEq ι] {watched : ι → Bool} {test : WaitResult ι → Pc ι}
  {children : Children ι} {s s' : State ι}

/-- What a step can do: a child terminates, or the call returns. -/
theorem step_cases {a : Action ι} (hs : (loop watched test children).step s a = some s') :
    (∃ c, ∃ hc : c ∈ s.children.left, c ∉ s.children.zombies ∧
        s' = { s with children := s.children.terminate c hc }) ∨
      ∃ r, a = .wait r ∧ s.pc = .wait ∧ MayReturn watched s.children r ∧
        s' = { pc := test r, children := r.apply s.children } := by
  cases a with
  | terminate c =>
    simp only [loop, Option.dite_none_right_eq_some, Option.some.injEq] at hs
    obtain ⟨h, rfl⟩ := hs
    exact .inl ⟨c, h.1, h.2, rfl⟩
  | wait r =>
    simp only [loop, Option.ite_none_right_eq_some, Option.some.injEq] at hs
    obtain ⟨⟨hpc, hr⟩, rfl⟩ := hs
    exact .inr ⟨r, rfl, hpc, hr, rfl⟩

/-- The call may return. -/
theorem step_wait {r : WaitResult ι} (hpc : s.pc = .wait) (hr : MayReturn watched s.children r) :
    (loop watched test children).step s (.wait r) =
      some { pc := test r, children := r.apply s.children } :=
  if_pos ⟨hpc, hr⟩

/-- What holds of the children when a call has ended the loop, whatever terminates afterwards. -/
theorem left_of_returned {P : WaitResult ι → Finset ι → Prop}
    (htest : ∀ r r' children, MayReturn watched children r → test r = .returned r' →
      P r' (r.apply children).left)
    (h : (loop watched test children).Reachable s) :
    ∀ r, s.pc = .returned r → P r s.children.left := by
  refine h.invariant (P := fun s => ∀ r, s.pc = .returned r → P r s.children.left) nofun ?_
  intro s a s' ih hs
  rcases step_cases hs with ⟨c, hc, -, rfl⟩ | ⟨r, -, -, hr, rfl⟩
  · exact ih
  · exact fun r' hr' => htest r r' _ hr hr'

end Loop

/-! ## `reap_all_children` -/

section Reap

variable {ι : Type*} [DecidableEq ι] {children : Children ι} {s s' : State ι}

/-- The loop ends with `ECHILD` when no child is left, and with `EINTR` when one is. -/
theorem left_eq_empty_iff (h : (reapAllChildren children).Reachable s) :
    ∀ r, s.pc = .returned r → (s.children.left = ∅ ↔ r ≠ .interrupted) := by
  refine left_of_returned (P := fun r left => left = ∅ ↔ r ≠ .interrupted) ?_ h
  intro r r' children hr hr'
  cases r with
  | child c => cases hr'
  | interrupted =>
    obtain rfl := Pc.returned.inj hr'
    obtain ⟨c, hc, -⟩ := hr
    exact ⟨fun hempty => absurd hc (hempty ▸ Finset.notMem_empty c), fun hne => absurd rfl hne⟩
  | noChild =>
    obtain rfl := Pc.returned.inj hr'
    refine ⟨fun _ => nofun, fun _ => Finset.eq_empty_of_forall_notMem fun c hc => ?_⟩
    exact absurd (hr c hc) (by simp)

/-- The number of steps that are still to come at most: a child terminates and is reaped, and one
call ends the loop. -/
def rank (s : State ι) : ℕ :=
  2 * s.children.left.card - s.children.zombies.card + if s.pc = .wait then 1 else 0

/-- A child terminates or is reaped, or a call of `wait` ends the loop, and each lowers the bound.
-/
theorem rank_step {a : Action ι} (hs : (reapAllChildren children).step s a = some s') :
    rank s' < rank s := by
  have hle := Finset.card_le_card s.children.zombies_subset
  rcases step_cases hs with ⟨c, hc, hnot, rfl⟩ | ⟨r, -, hpc, hr, rfl⟩
  · have hle' := Finset.card_le_card (s.children.terminate c hc).zombies_subset
    simp only [rank, Children.terminate, Finset.card_insert_of_notMem hnot] at hle' ⊢
    omega
  · cases r with
    | child c =>
      have hzombie := hr.2
      have hcard := Finset.card_erase_add_one hzombie
      have hcard' := Finset.card_erase_add_one (s.children.zombies_subset hzombie)
      simp only [rank, WaitResult.apply, Children.reap, reapTest, hpc, ↓reduceIte]
      omega
    | interrupted | noChild =>
      simp only [rank, WaitResult.apply, reapTest, hpc, reduceCtorEq, ↓reduceIte]
      omega

/-- A run has at most two steps for each child, and one more. -/
theorem length_run_le {as : List (Action ι)}
    (hrun : (reapAllChildren children).run (reapAllChildren children).init as = some s) :
    as.length ≤ 2 * children.left.card + 1 := by
  have hle := TransitionSystem.Reachable.length_run_le (fun _ _ _ _ => rank_step) .init hrun
  have hinit : rank (reapAllChildren children).init ≤ 2 * children.left.card + 1 := by
    simp only [rank, reapAllChildren, loop, ↓reduceIte]
    omega
  omega

/-- As long as the loop has not returned, a child can terminate or the call can return. -/
theorem returned_of_stuck (h : (reapAllChildren children).Reachable s)
    (hstuck : (reapAllChildren children).Stuck s) : ∃ r, s.pc = .returned r := by
  have hdied : s.pc ≠ .died := by
    refine h.invariant (P := fun s => s.pc ≠ .died) nofun ?_
    intro s a s' ih hs
    rcases step_cases hs with ⟨c, hc, -, rfl⟩ | ⟨r, -, -, -, rfl⟩
    · exact ih
    · cases r <;> exact nofun
  cases hpc : s.pc with
  | wait =>
    -- the call can be interrupted if there is a child, and fails with `ECHILD` if there is none
    rcases s.children.left.eq_empty_or_nonempty with hempty | ⟨c, hc⟩
    · have hr : MayReturn (fun _ => true) s.children .noChild := by simp [MayReturn, hempty]
      exact absurd (hstuck _) (by rw [reapAllChildren, step_wait hpc hr]; exact nofun)
    · have hr : MayReturn (fun _ => true) s.children .interrupted := ⟨c, hc, rfl⟩
      exact absurd (hstuck _) (by rw [reapAllChildren, step_wait hpc hr]; exact nofun)
  | returned r => exact ⟨r, rfl⟩
  | died => exact absurd hpc hdied

/-- No children appear. -/
theorem left_subset (h : (reapAllChildren children).Reachable s) :
    s.children.left ⊆ children.left := by
  refine h.invariant (P := fun s => s.children.left ⊆ children.left) (Finset.Subset.refl _) ?_
  intro s a s' ih hs
  rcases step_cases hs with ⟨c, hc, -, rfl⟩ | ⟨r, -, -, -, rfl⟩
  · exact ih
  · cases r with
    | child c => exact (Finset.erase_subset c _).trans ih
    | interrupted | noChild => exact ih

/-- The first `wait` may be interrupted if there is a child, and that ends the loop. -/
theorem exists_interrupted {c : ι} (hc : c ∈ children.left) :
    (reapAllChildren children).Reachable { pc := .returned .interrupted, children := children } :=
  TransitionSystem.Reachable.next .init (step_wait (r := .interrupted) rfl ⟨c, hc, rfl⟩)

/-- A child for which `wait_for_pid` has waited is reaped. -/
theorem notMem_left_of_returned {pid : ι} (h : (waitForPid pid children).Reachable s) :
    ∀ r, s.pc = .returned r → pid ∉ s.children.left := by
  refine left_of_returned (P := fun _ left => pid ∉ left) ?_ h
  intro r r' children hr hr'
  cases r with
  | child c =>
    obtain rfl : c = pid := by simpa using hr.1
    exact Finset.notMem_erase c _
  | interrupted => cases hr'
  | noChild => cases hr'

/-- For every set of children and along every run: when `reap_all_children` has returned, no child
is left exactly if its last `wait` was not interrupted. So over all runs it may be relied on only if
there are no children to begin with. When `wait_for_pid` has returned, its child is not left. -/
theorem reap_all_children_iff (children : Children ι) :
    (∀ s, (reapAllChildren children).Reachable s → ∀ r, s.pc = .returned r →
        (s.children.left = ∅ ↔ r ≠ .interrupted)) ∧
      ((∀ s, (reapAllChildren children).Reachable s → ∀ r, s.pc = .returned r →
        s.children.left = ∅) ↔ children.left = ∅) ∧
      ∀ pid s, (waitForPid pid children).Reachable s → ∀ r, s.pc = .returned r →
        pid ∉ s.children.left := by
  refine ⟨fun s => left_eq_empty_iff, ⟨?_, ?_⟩, fun pid s => notMem_left_of_returned⟩
  · intro hall
    refine Finset.eq_empty_of_forall_notMem fun c hc => ?_
    have hempty := hall _ (exists_interrupted hc) .interrupted rfl
    exact absurd hc (hempty ▸ Finset.notMem_empty c)
  · intro hempty s hs r _
    exact Finset.subset_empty.mp (hempty ▸ left_subset hs)

/-- One child, and a handler that runs during the first `wait`. -/
theorem reap_all_children_interrupted :
    ¬∀ (children : Children ℕ) (s : State ℕ) (r : WaitResult ℕ),
      (reapAllChildren children).Reachable s → s.pc = .returned r → s.children.left = ∅ := by
  intro hclaim
  let children : Children ℕ := { left := {1}, zombies := ∅, zombies_subset := by decide }
  have hleft := hclaim children _ _ (exists_interrupted (c := 1) (by decide)) rfl
  exact absurd hleft (by decide)

end Reap

end WaitChildren
