import OsPrograms.Lib.Signal
import OsPrograms.Lib.TransitionSystem

/-!
# Signal handlers that write to a pipe

A process whose signal handlers write one byte each to a pipe that only the process itself reads,
outside the handlers. The pipe holds up to `capacity` bytes and a `write` to a full pipe blocks. As
long as a handler runs the process does not read, so a handler that finds the pipe full blocks for
good.

A handler that starts needs a place in the pipe for its byte beside the bytes of the handlers it
interrupts. While there is one for each, no handler blocks (`Fits`); when one has started without
it, the process will never leave its handlers again (`Doomed`).

* `Effect`: what the steps that start no handler do to pipe and signals.
* `Uses`: a transition system that uses its pipe in this way, under a view of its states.
* `Uses.returns_iff`: its handlers return exactly as long as each of them starts with room.
-/

/-- A pipe written by the handlers of the signals in `σ`. -/
structure SignalPipe (σ : Type*) where
  /-- The number of bytes in the pipe. -/
  level : ℕ
  signals : Signals σ

namespace SignalPipe

variable {σ : Type*} {capacity : ℕ} {p q : SignalPipe σ}

/-- A handler runs and cannot write. -/
def Blocked (capacity : ℕ) (p : SignalPipe σ) : Prop :=
  p.signals.active ≠ [] ∧ capacity ≤ p.level

/-- There is room for another handler. -/
def Roomy (capacity : ℕ) (p : SignalPipe σ) : Prop :=
  p.level + p.signals.active.length < capacity

/-- There is a place for the byte of every handler that runs. -/
def Fits (capacity : ℕ) (p : SignalPipe σ) : Prop :=
  p.level + p.signals.active.length ≤ capacity

/-- More handlers run than there are places in the pipe. -/
def Doomed (capacity : ℕ) (p : SignalPipe σ) : Prop :=
  p.level ≤ capacity ∧ capacity < p.level + p.signals.active.length

/-- The innermost handler writes its byte and returns. -/
def write (p : SignalPipe σ) : SignalPipe σ where
  level := p.level + 1
  signals := p.signals.sigreturn

/-- A handler that writes its byte returns. -/
theorem length_active_write (h : p.signals.active ≠ []) :
    p.write.signals.active.length + 1 = p.signals.active.length := by
  have hpos := List.length_pos_iff.mpr h
  simp only [write, Signals.sigreturn, List.length_tail]
  omega

/-- With a place for every byte, no handler has to wait for one. -/
theorem Fits.not_blocked (h : Fits capacity p) : ¬Blocked capacity p := by
  rintro ⟨hactive, hfull⟩
  have hpos := List.length_pos_iff.mpr hactive
  rw [Fits] at h
  omega

/-- Without a place for every byte, some handler is running. -/
theorem Doomed.active_ne_nil (h : Doomed capacity p) : p.signals.active ≠ [] := by
  intro hnil
  have hlt := h.2
  rw [hnil, List.length_nil] at hlt
  exact absurd h.1 (by omega)

/-- A handler that returns takes a place, so that the places stay too few. -/
theorem Doomed.write (h : Doomed capacity p) (hlt : p.level < capacity) :
    Doomed capacity p.write := by
  have hlength := length_active_write h.active_ne_nil
  have hdoomed := h.2
  refine ⟨hlt, ?_⟩
  change capacity < p.level + 1 + p.write.signals.active.length
  omega

variable [DecidableEq σ]

/-- A handler starts. -/
def Delivers (p q : SignalPipe σ) : Prop :=
  ∃ x signals, p.signals.deliver x = some signals ∧ q = { p with signals := signals }

/-- What a step that starts no handler can do. -/
inductive Effect (capacity : ℕ) (p : SignalPipe σ) : SignalPipe σ → Prop
  | idle : Effect capacity p p
  | send (x : σ) : Effect capacity p { p with signals := p.signals.send x }
  | write : p.signals.active ≠ [] → p.level < capacity → Effect capacity p p.write
  | read (n : ℕ) : p.signals.active = [] → Effect capacity p { p with level := p.level - n }

/-- A handler starts, and the pipe is left alone. -/
theorem Delivers.eq (h : Delivers p q) :
    q.level = p.level ∧ q.signals.active.length = p.signals.active.length + 1 := by
  obtain ⟨x, signals, hdeliver, rfl⟩ := h
  obtain ⟨-, rfl⟩ := Signals.deliver_eq_some_iff.mp hdeliver
  exact ⟨rfl, rfl⟩

/-- The places stay enough as long as no handler starts. -/
theorem Fits.effect (h : Fits capacity p) (he : Effect capacity p q) : Fits capacity q := by
  rw [Fits] at h ⊢
  cases he with
  | idle => exact h
  | send x => exact h
  | write hactive _ =>
    have hlength := length_active_write hactive
    simp only [write] at hlength ⊢
    omega
  | read n _ =>
    dsimp only
    omega

/-- A handler that starts with room has a place for its byte. -/
theorem Roomy.fits (h : Roomy capacity p) (hd : Delivers p q) : Fits capacity q := by
  obtain ⟨hlevel, hlength⟩ := hd.eq
  rw [Roomy] at h
  rw [Fits]
  omega

/-- The pipe never holds more than it can. -/
theorem level_le_of_effect (h : p.level ≤ capacity) (he : Effect capacity p q) :
    q.level ≤ capacity := by
  cases he with
  | idle => exact h
  | send x => exact h
  | write _ hlt => exact hlt
  | read n _ => exact Nat.le_trans (Nat.sub_le _ n) h

/-- A handler that starts without room is one too many. -/
theorem doomed_of_delivers (h : p.level ≤ capacity) (hroom : ¬Roomy capacity p)
    (hd : Delivers p q) : Doomed capacity q := by
  obtain ⟨hlevel, hlength⟩ := hd.eq
  rw [Roomy] at hroom
  exact ⟨by omega, by omega⟩

/-- The places stay too few, because the process does not read while a handler runs. -/
theorem Doomed.effect (h : Doomed capacity p) (he : Effect capacity p q) : Doomed capacity q := by
  cases he with
  | idle => exact h
  | send x => exact h
  | write _ hlt => exact h.write hlt
  | read n hactive =>
    -- the process does not read while a handler runs
    exact absurd hactive h.active_ne_nil

/-- Another handler makes it worse. -/
theorem Doomed.delivers (h : Doomed capacity p) (hd : Delivers p q) : Doomed capacity q := by
  obtain ⟨hlevel, hlength⟩ := hd.eq
  obtain ⟨hle, hlt⟩ := h
  exact ⟨by omega, by omega⟩

/-- A handler that is blocked stays so. -/
theorem Blocked.effect (h : Blocked capacity p) (he : Effect capacity p q) :
    Blocked capacity q := by
  cases he with
  | idle => exact h
  | send x => exact h
  | write _ hlt => exact absurd h.2 (by omega)
  | read n hactive => exact absurd hactive h.1

/-- A handler that interrupts a blocked one is blocked as well. -/
theorem Blocked.delivers (h : Blocked capacity p) (hd : Delivers p q) : Blocked capacity q := by
  obtain ⟨hlevel, hlength⟩ := hd.eq
  refine ⟨List.ne_nil_of_length_eq_add_one hlength, ?_⟩
  rw [hlevel]
  exact h.2

/-! ## Programs with a signal pipe -/

section Uses

variable {S A : Type*}

/-- `sys` uses a signal pipe: `view` is what its states say about pipe and signals, `Open` holds as
long as the process runs and both ends of the pipe are open, the actions in `starts` start a
handler, and `handler` is the step of the innermost handler. -/
structure Uses (sys : TransitionSystem S A) (capacity : ℕ) (view : S → SignalPipe σ)
    (Open : S → Prop) (starts : A → Prop) (handler : A) : Prop where
  init : (view sys.init).level = 0 ∧ (view sys.init).signals.active = []
  /-- What has been closed stays closed. -/
  open_of_step : ∀ {s a s'}, sys.step s a = some s' → Open s' → Open s
  /-- Nothing is closed while a handler runs. -/
  open_step : ∀ {s a s'}, Open s → sys.step s a = some s' →
    starts a ∨ (view s).signals.active ≠ [] → Open s'
  delivers : ∀ {s a s'}, Open s → starts a → sys.step s a = some s' → Delivers (view s) (view s')
  effect : ∀ {s a s'}, Open s → ¬starts a → sys.step s a = some s' →
    Effect capacity (view s) (view s')
  /-- A handler that finds room writes its byte. -/
  handler_step : ∀ {s}, Open s → (view s).signals.active ≠ [] → (view s).level < capacity →
    ∃ s', sys.step s handler = some s' ∧ view s' = (view s).write

/-- The step, if it starts a handler, does so with room for it in the pipe. -/
def StartsWithRoom (capacity : ℕ) (view : S → SignalPipe σ) (Open : S → Prop) (starts : A → Prop)
    (s : S) (a : A) : Prop :=
  starts a → Open s → Roomy capacity (view s)

/-- The signal `x` can come at any time, and be handled at once. -/
structure CanSignal (sys : TransitionSystem S A) (view : S → SignalPipe σ) (Open : S → Prop)
    (starts : A → Prop) (x : σ) : Prop where
  send : ∀ {s}, Open s → ∃ a s', sys.step s a = some s' ∧ Open s' ∧
    view s' = { view s with signals := (view s).signals.send x }
  deliver : ∀ {s signals}, Open s → (view s).signals.deliver x = some signals →
    ∃ a s', starts a ∧ sys.step s a = some s' ∧ view s' = { view s with signals := signals }

/-- The handlers of `sys` return exactly when they are started under the condition `room`, and some
runs break it. -/
structure ReturnsIff (sys : TransitionSystem S A) (view : S → SignalPipe σ)
    (room : S → A → Prop) (blocked : S → Prop) : Prop where
  /-- With room for every handler none of them blocks. -/
  not_blocked : ∀ s, sys.ReachableVia room s → ¬blocked s
  /-- After one that starts without room the process does not leave its handlers any more. -/
  hangs : ∀ s a s', sys.Reachable s → ¬room s a → sys.step s a = some s' →
    ∀ as t, sys.run s' as = some t → (view t).signals.active ≠ []
  /-- When they have filled the pipe, the next one blocks. -/
  blocks : ∀ s a s', sys.Reachable s → ¬room s a → sys.step s a = some s' →
    ∃ as t, sys.run s' as = some t ∧ blocked t
  /-- It blocks for good. -/
  forever : ∀ s a s', blocked s → sys.step s a = some s' → blocked s'
  /-- Without the condition a handler can block. -/
  reachable : ∃ s, sys.Reachable s ∧ blocked s

variable {sys : TransitionSystem S A} {view : S → SignalPipe σ} {Open : S → Prop}
  {starts : A → Prop} {handler : A} {s : S}

/-- As long as every handler starts with room, there is a place for every byte. -/
theorem Uses.fits (h : Uses sys capacity view Open starts handler)
    (hs : sys.ReachableVia (StartsWithRoom capacity view Open starts) s) :
    Open s → Fits capacity (view s) := by
  refine hs.invariant (P := fun s => Open s → Fits capacity (view s)) ?_ ?_
  · intro _
    rw [Fits, h.init.1, h.init.2, List.length_nil]
    exact Nat.zero_le _
  · intro s a s' ih hroom hstep hopen
    -- a pipe that is open now was open before the step
    have hopen' := h.open_of_step hstep hopen
    by_cases hstarts : starts a
    · exact (hroom hstarts hopen').fits (h.delivers hopen' hstarts hstep)
    · exact (ih hopen').effect (h.effect hopen' hstarts hstep)

/-- The pipe never holds more than its capacity. -/
theorem Uses.level_le (h : Uses sys capacity view Open starts handler) (hs : sys.Reachable s) :
    Open s → (view s).level ≤ capacity := by
  refine hs.invariant (P := fun s => Open s → (view s).level ≤ capacity) ?_ ?_
  · intro _
    rw [h.init.1]
    exact Nat.zero_le _
  · intro s a s' ih hstep hopen
    have hopen' := h.open_of_step hstep hopen
    by_cases hstarts : starts a
    · rw [(h.delivers hopen' hstarts hstep).eq.1]
      exact ih hopen'
    · exact level_le_of_effect (ih hopen') (h.effect hopen' hstarts hstep)

/-- A process that is doomed stays so. -/
theorem Uses.doomed_run (h : Uses sys capacity view Open starts handler) {as : List A} {t : S}
    (hopen : Open s) (hdoomed : Doomed capacity (view s)) (hrun : sys.run s as = some t) :
    Doomed capacity (view t) := by
  induction as generalizing s with
  | nil =>
    obtain rfl := Option.some.inj hrun
    exact hdoomed
  | cons a as ih =>
    obtain ⟨u, hstep, hrun⟩ := TransitionSystem.exists_of_run_cons hrun
    have hopen' := h.open_step hopen hstep (.inr hdoomed.active_ne_nil)
    by_cases hstarts : starts a
    · exact ih hopen' (hdoomed.delivers (h.delivers hopen hstarts hstep)) hrun
    · exact ih hopen' (hdoomed.effect (h.effect hopen hstarts hstep)) hrun

/-- The handlers that have a place write their bytes, and the next one blocks. -/
theorem Uses.exists_blocked (h : Uses sys capacity view Open starts handler) (hopen : Open s)
    (hdoomed : Doomed capacity (view s)) :
    ∃ as t, sys.run s as = some t ∧ Open t ∧ Blocked capacity (view t) := by
  -- by induction on the free places: each handler that returns takes one
  induction hfree : capacity - (view s).level generalizing s with
  | zero => exact ⟨[], s, rfl, hopen, hdoomed.active_ne_nil, by omega⟩
  | succ n ih =>
    have hlt : (view s).level < capacity := by omega
    obtain ⟨s', hstep, hview⟩ := h.handler_step hopen hdoomed.active_ne_nil hlt
    have hopen' := h.open_step hopen hstep (.inr hdoomed.active_ne_nil)
    have hdoomed' : Doomed capacity (view s') := hview ▸ hdoomed.write hlt
    have hfree' : capacity - (view s').level = n := by
      rw [hview]
      change capacity - ((view s).level + 1) = n
      omega
    obtain ⟨as, t, hrun, hblocked⟩ := ih hopen' hdoomed' hfree'
    exact ⟨handler :: as, t, by rw [TransitionSystem.run_cons hstep]; exact hrun, hblocked⟩

/-- A handler that starts without room dooms the process. -/
theorem Uses.doomed_of_step (h : Uses sys capacity view Open starts handler) {a : A} {s' : S}
    (hs : sys.Reachable s) (hroom : ¬StartsWithRoom capacity view Open starts s a)
    (hstep : sys.step s a = some s') : Open s' ∧ Doomed capacity (view s') := by
  simp only [StartsWithRoom, Classical.not_imp] at hroom
  obtain ⟨hstarts, hopen, hroom⟩ := hroom
  exact ⟨h.open_step hopen hstep (.inl hstarts),
    doomed_of_delivers (h.level_le hs hopen) hroom (h.delivers hopen hstarts hstep)⟩

/-- A handler starts when its signal comes. -/
theorem Uses.exists_signal (h : Uses sys capacity view Open starts handler) {x : σ}
    (hx : CanSignal sys view Open starts x) (hopen : Open s)
    (hactive : (view s).signals.active = []) :
    ∃ as t, sys.run s as = some t ∧ Open t ∧ (view t).level = (view s).level ∧
      (view t).signals.active.length = 1 := by
  obtain ⟨a, s₁, hsend, hopen₁, hview₁⟩ := hx.send hopen
  -- no handler runs, so the signal is not blocked
  obtain ⟨signals, hdeliver, hsignals⟩ :=
    Signals.deliver_send (s := (view s).signals) (x := x) (by rw [hactive]; exact nofun)
  obtain ⟨b, t, hstarts, hstart, hview⟩ := hx.deliver hopen₁ (by rw [hview₁]; exact hdeliver)
  refine ⟨[a, b], t, ?_, h.open_step hopen₁ hstart (.inl hstarts), ?_, ?_⟩
  · rw [TransitionSystem.run_cons hsend, TransitionSystem.run_cons hstart]
    rfl
  · rw [hview, hview₁]
  · rw [hview, hsignals, hactive]
    rfl

/-- When a signal can come at any time, so many can come that a handler blocks. -/
theorem Uses.exists_reachable_blocked (h : Uses sys capacity view Open starts handler) {x : σ}
    (hx : CanSignal sys view Open starts x) (hinit : Open sys.init) :
    ∃ s, sys.Reachable s ∧ Open s ∧ Blocked capacity (view s) := by
  -- each signal leaves a byte in the pipe, until it is full
  have hlevel : ∀ n ≤ capacity, ∃ s, sys.Reachable s ∧ Open s ∧ (view s).signals.active = [] ∧
      (view s).level = n := by
    intro n hn
    induction n with
    | zero => exact ⟨sys.init, .init, hinit, h.init.2, h.init.1⟩
    | succ n ih =>
      obtain ⟨s, hs, hopen, hactive, hlevel⟩ := ih (by omega)
      obtain ⟨as, t, hrun, hopen', hlevel', hone⟩ := h.exists_signal hx hopen hactive
      have hne : (view t).signals.active ≠ [] := List.ne_nil_of_length_eq_add_one hone
      obtain ⟨u, hstep, hview⟩ := h.handler_step hopen' hne (by omega)
      have hlength := length_active_write hne
      refine ⟨u, (hs.run hrun).next hstep, h.open_step hopen' hstep (.inr hne), ?_, ?_⟩
      · rw [hview]
        exact List.eq_nil_of_length_eq_zero (by omega)
      · rw [hview]
        change (view t).level + 1 = n + 1
        omega
  obtain ⟨s, hs, hopen, hactive, hfull⟩ := hlevel capacity (Nat.le_refl _)
  obtain ⟨as, t, hrun, hopen', hlevel', hone⟩ := h.exists_signal hx hopen hactive
  exact ⟨t, hs.run hrun, hopen', List.ne_nil_of_length_eq_add_one hone, by omega⟩

/-- What follows for a program whose handlers write to a pipe that only its main loop reads: with
room they return, without it they block in the end, and signals that keep coming use up the room. -/
theorem Uses.returns_iff (h : Uses sys capacity view Open starts handler) {x : σ}
    (hx : CanSignal sys view Open starts x) (hinit : Open sys.init) {blocked : S → Prop}
    (hblocked : ∀ s, blocked s ↔ Open s ∧ Blocked capacity (view s)) :
    ReturnsIff sys view (StartsWithRoom capacity view Open starts) blocked where
  not_blocked s hs hb := by
    obtain ⟨hopen, hb⟩ := (hblocked s).mp hb
    exact (h.fits hs hopen).not_blocked hb
  hangs s a s' hs hroom hstep as t hrun := by
    obtain ⟨hopen, hdoomed⟩ := h.doomed_of_step hs hroom hstep
    exact (h.doomed_run hopen hdoomed hrun).active_ne_nil
  blocks s a s' hs hroom hstep := by
    obtain ⟨hopen, hdoomed⟩ := h.doomed_of_step hs hroom hstep
    obtain ⟨as, t, hrun, hb⟩ := h.exists_blocked hopen hdoomed
    exact ⟨as, t, hrun, (hblocked t).mpr hb⟩
  forever s a s' hb hstep := by
    obtain ⟨hopen, hb⟩ := (hblocked s).mp hb
    refine (hblocked s').mpr ⟨h.open_step hopen hstep (.inr hb.1), ?_⟩
    by_cases hstarts : starts a
    · exact hb.delivers (h.delivers hopen hstarts hstep)
    · exact hb.effect (h.effect hopen hstarts hstep)
  reachable := by
    obtain ⟨s, hs, hb⟩ := h.exists_reachable_blocked hx hinit
    exact ⟨s, hs, (hblocked s).mpr hb⟩

end Uses

end SignalPipe
