import OsPrograms.FileLocking.FlockParentChild
import OsPrograms.Lib.Refinement

/-!
# When the child of `flock_parent_child` gets the lock

With one or two instances of the program the child never gets the competing lock, by the invariant.
Three instances have a run in which it does. As instances that have not started do not matter, this
run is there for every larger number of instances: `Embeds` relates a state to one with more
instances, and is kept when these follow the steps of the others.

## Main results

- `exists_embeds`: what some instances can reach, more of them can reach.
- `competing_flock_iff`: some child can get the lock exactly when there are three instances or more.
-/

namespace FlockParentChild

section Embedding

variable {m n : ℕ} {leftover : Option (List Char)} {s s' : State m} {t : State n}
  {e : Fin m ↪ Fin n} {p : Fin m}

/-- The same description, among the instances that `e` embeds. -/
def Description.map (e : Fin m ↪ Fin n) : Description m → Description n
  | main p => main (e p)
  | child p => child (e p)

/-- Different descriptions stay different among more instances. -/
theorem Description.map_injective (e : Fin m ↪ Fin n) : Function.Injective (Description.map e) := by
  intro o o' h
  cases o <;> cases o' <;> simp_all [Description.map]

/-- The file as the embedded instances see it. -/
structure FileEmbeds (e : Fin m ↪ Fin n) (f : LockFile (Description m))
    (g : LockFile (Description n)) : Prop where
  entry : g.entry = f.entry
  next : g.next = f.next
  holder : ∀ l, g.holder l = (f.holder l).map (Description.map e)

/-- `t` has all that `s` has, and perhaps more instances. -/
structure Embeds (e : Fin m ↪ Fin n) (s : State m) (t : State n) : Prop where
  file : FileEmbeds e s.file t.file
  inst : ∀ p, t.inst (e p) = s.inst p

variable {f f' : LockFile (Description m)} {g : LockFile (Description n)}

/-- A description is closed on both sides. -/
theorem FileEmbeds.exit (h : FileEmbeds e f g) (o : Description m) :
    FileEmbeds e (f.exit o) (g.exit (o.map e)) where
  entry := h.entry
  next := h.next
  holder l := by
    simp only [LockFile.exit, h.holder l]
    cases f.holder l with
    | none => simp [RecordLock.release]
    | some o' =>
      by_cases heq : o' = o
      · simp [RecordLock.release, heq]
      · simp [RecordLock.release, heq, (Description.map_injective e).eq_iff]

/-- Both sides open the same inode and truncate it. -/
theorem FileEmbeds.openTrunc (h : FileEmbeds e f g) :
    (openTrunc g).1 = (openTrunc f).1 ∧ FileEmbeds e (openTrunc f).2 (openTrunc g).2 := by
  have hentry := h.entry
  have hnext := h.next
  cases hf : f.entry with
  | some i =>
    rw [hf] at hentry
    simp only [FlockParentChild.openTrunc, LockFile.openCreate, hf, hentry, true_and]
    exact ⟨rfl, hnext, h.holder⟩
  | none =>
    rw [hf] at hentry
    simp only [FlockParentChild.openTrunc, LockFile.openCreate, hf, hentry, hnext, true_and]
    exact ⟨rfl, rfl, h.holder⟩

/-- A lock that is granted among fewer instances is granted among more. -/
theorem FileEmbeds.tryLock {o : Description m} {i : ℕ} (h : FileEmbeds e f g)
    (hlock : f.tryLock o i = some f') :
    ∃ g', g.tryLock (o.map e) i = some g' ∧ FileEmbeds e f' g' := by
  obtain ⟨hfree, rfl⟩ := LockFile.tryLock_eq_some_iff.mp hlock
  refine ⟨_, LockFile.tryLock_eq_some_iff.mpr ⟨?_, rfl⟩, h.entry, h.next, fun l => ?_⟩
  · rw [h.holder i]
    rcases hfree with hfree | hfree <;> simp [hfree]
  · simp only [Function.update_apply]
    split
    · rfl
    · exact h.holder l

/-- A lock that is refused among fewer instances is refused among more. -/
theorem FileEmbeds.tryLock_eq_none {o : Description m} {i : ℕ} (h : FileEmbeds e f g)
    (hlock : f.tryLock o i = none) : g.tryLock (o.map e) i = none := by
  rw [Option.eq_none_iff_forall_ne_some] at hlock ⊢
  intro g' hg
  obtain ⟨hfree, -⟩ := LockFile.tryLock_eq_some_iff.mp hg
  refine hlock _ (LockFile.tryLock_eq_some_iff.mpr ⟨?_, rfl⟩)
  rw [h.holder i] at hfree
  simpa [(Description.map_injective e).eq_iff] using hfree

theorem Embeds.init (e : Fin m ↪ Fin n) (leftover : Option (List Char)) :
    Embeds e (init leftover) (init leftover) :=
  ⟨⟨rfl, rfl, fun _ => rfl⟩, fun _ => rfl⟩

/-- The instance `p` goes on in the same way. -/
theorem Embeds.update {x : Instance} (h : Embeds e s t) (hfile : FileEmbeds e f g) :
    Embeds e ⟨f, Function.update s.inst p x⟩ ⟨g, Function.update t.inst (e p) x⟩ where
  file := hfile
  inst q := by
    by_cases hq : q = p
    · subst hq
      simp
    · simp [Function.update_of_ne hq, Function.update_of_ne (e.injective.ne hq), h.inst q]

/-- The child of an instance ends on both sides. -/
theorem Embeds.exitChild (h : Embeds e s t) (status : Option ℕ) :
    Embeds e (s.exitChild p status) (t.exitChild (e p) status) := by
  have hfile := h.file.exit (.child p)
  unfold State.exitChild
  rw [h.inst p]
  split
  · rw [State.nextChild, State.nextChild, h.inst p]
    exact h.update (hfile.exit (.main p))
  · rw [State.nextChild, State.nextChild, h.inst p]
    exact h.update hfile

/-- An instance ends on both sides. -/
theorem Embeds.exit (h : Embeds e s t) (status : Option ℕ) :
    Embeds e (s.exit p status) (t.exit (e p) status) := by
  simp only [State.exit, State.next, h.inst p]
  split
  · exact h.update (h.file.exit (.main p))
  · exact h.update h.file

/-- The parent of an instance makes the same step among more instances. -/
theorem Embeds.mainStep (h : Embeds e s t) (hs : mainStep s p = some s') :
    ∃ t', mainStep t (e p) = some t' ∧ Embeds e s' t' := by
  unfold FlockParentChild.mainStep at hs ⊢
  rw [h.inst p]
  cases hpc : (s.inst p).pc <;> simp only [hpc, Option.some.injEq, reduceCtorEq] at hs ⊢
  case openFile =>
    subst hs
    obtain ⟨hfd, hfile⟩ := h.file.openTrunc
    refine ⟨_, rfl, ?_⟩
    rw [State.next, State.next, h.inst p, hfd]
    exact h.update hfile
  case flock fd =>
    -- the other instances have no locks, so what is free here is free there
    split at hs
    next file hlock =>
      obtain rfl := Option.some.inj hs
      obtain ⟨file', hlock', hfile⟩ := h.file.tryLock hlock
      rw [Description.map] at hlock'
      simp only [hlock', Option.some.injEq, exists_eq_left', State.next, h.inst p]
      exact h.update hfile
    next => cases hs
  case fork fd =>
    subst hs
    exact ⟨_, rfl, h.update h.file⟩
  case waitForPid fd =>
    split at hs
    next st hchild =>
      obtain rfl := Option.some.inj hs
      simp only [Option.some.injEq, exists_eq_left', State.next, h.inst p]
      exact h.update h.file
    next => cases hs
  case unlock fd =>
    subst hs
    refine ⟨_, rfl, ?_⟩
    rw [State.next, State.next, h.inst p]
    exact h.update (h.file.exit (.main p))
  case unlink =>
    subst hs
    refine ⟨_, rfl, ?_⟩
    rw [State.next, State.next, h.inst p]
    exact h.update ⟨rfl, h.file.next, h.file.holder⟩
  case ret =>
    subst hs
    exact ⟨_, rfl, h.exit _⟩

/-- The child of an instance makes the same step among more instances. -/
theorem Embeds.childStep (h : Embeds e s t) (hs : childStep s p = some s') :
    ∃ t', childStep t (e p) = some t' ∧ Embeds e s' t' := by
  unfold FlockParentChild.childStep at hs ⊢
  rw [h.inst p]
  cases hpc : (s.inst p).child <;> simp only [hpc, Option.some.injEq, reduceCtorEq] at hs ⊢
  case openFile fd =>
    subst hs
    refine ⟨_, rfl, ?_⟩
    rw [State.nextChild, State.nextChild, h.inst p, h.file.entry]
    exact h.update h.file
  case flock fd fd2 =>
    rcases fd2 with _ | fd2
    · obtain rfl := Option.some.inj hs
      refine ⟨_, rfl, ?_⟩
      rw [State.nextChild, State.nextChild, h.inst p]
      exact h.update h.file
    · simp only at hs ⊢
      split at hs
      next file hlock =>
        obtain rfl := Option.some.inj hs
        obtain ⟨file', hlock', hfile⟩ := h.file.tryLock hlock
        rw [Description.map] at hlock'
        simp only [hlock', Option.some.injEq, exists_eq_left', State.nextChild, h.inst p]
        exact h.update hfile
      -- a lock that is refused here has a holder, which is there as well
      next hlock =>
        obtain rfl := Option.some.inj hs
        have hlock' := h.file.tryLock_eq_none hlock
        rw [Description.map] at hlock'
        simp only [hlock', Option.some.injEq, exists_eq_left', State.nextChild, h.inst p]
        exact h.update h.file
  case print fd =>
    subst hs
    refine ⟨_, rfl, ?_⟩
    rw [State.nextChild, State.nextChild, h.inst p]
    exact h.update h.file
  case exit fd status =>
    subst hs
    exact ⟨_, rfl, h.exitChild _⟩

/-- What some instances can do, they can do when there are more of them. -/
theorem Embeds.step {a : Action m} (h : Embeds e s t) (hs : step s a = some s') :
    ∃ b t', step t b = some t' ∧ Embeds e s' t' := by
  cases a with
  | main p => exact ⟨.main (e p), h.mainStep hs⟩
  | child p => exact ⟨.child (e p), h.childStep hs⟩
  | killChild p =>
    simp only [FlockParentChild.step, Option.ite_none_left_eq_some, Option.some.injEq] at hs
    obtain ⟨hrunning, rfl⟩ := hs
    refine ⟨.killChild (e p), _, ?_, h.exitChild none⟩
    simp [FlockParentChild.step, h.inst p, hrunning]
  | openFails p =>
    simp only [FlockParentChild.step] at hs
    split at hs
    next hpc =>
      obtain rfl := Option.some.inj hs
      exact ⟨.openFails (e p), _, by simp [FlockParentChild.step, h.inst p, hpc], h.exit _⟩
    next => cases hs
  | forkFails p =>
    simp only [FlockParentChild.step] at hs
    split at hs
    next hpc =>
      obtain rfl := Option.some.inj hs
      exact ⟨.forkFails (e p), _, by simp [FlockParentChild.step, h.inst p, hpc], h.exit _⟩
    next => cases hs
  | kill p =>
    refine ⟨.kill (e p), ?_⟩
    simp only [FlockParentChild.step, h.inst p] at hs ⊢
    split at hs
    next => cases hs
    next =>
      obtain rfl := Option.some.inj hs
      exact ⟨_, rfl, h.exit _⟩

/-- What some instances can do they can do among more, while the others have not started. -/
theorem exists_embeds (e : Fin m ↪ Fin n) (h : (system leftover).Reachable s) :
    ∃ t, (system leftover).Reachable t ∧ Embeds e s t :=
  h.exists_related (Embeds.init e leftover) fun _ _ _ _ hembeds hs => hembeds.step hs

end Embedding

/-- The second instance opens the file that the first has locked, and locks it between the unlock
and the `unlink` of the first. Then the third makes a new file, which nobody has locked when the
child of the second tries. -/
theorem race (leftover : Option (List Char)) :
    ((system leftover).run (init leftover : State 3) [.main 0, .main 0, .main 1, .main 0,
      .child 0, .child 0, .child 0, .child 0, .main 0, .main 0, .main 1, .main 1, .main 0,
      .main 2, .child 1, .child 1, .child 1]).map (fun s => (s.inst 1).child) =
        some (.exited (some 1)) := by
  cases leftover <;> rfl

/-- Some child can get the lock, and exits with 1, exactly when there are three instances or more,
whatever fails and whoever is killed. -/
theorem competing_flock_iff (n : ℕ) (leftover : Option (List Char)) :
    (∃ s : State n, (system leftover).Reachable s ∧ ∃ p, (s.inst p).child = .exited (some 1)) ↔
      3 ≤ n := by
  constructor
  · rintro ⟨s, hs, p, hp⟩
    exact (inv_of_reachable hs).acquired p (.inl hp)
  · intro hn
    obtain ⟨s, hrun, hchild⟩ := Option.map_eq_some_iff.mp (race leftover)
    obtain ⟨t, ht, hembeds⟩ :=
      exists_embeds (Fin.castLEEmb hn) (TransitionSystem.reachable_of_run hrun)
    exact ⟨t, ht, Fin.castLEEmb hn 1, by rw [hembeds.inst, hchild]⟩

end FlockParentChild
