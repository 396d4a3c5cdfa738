import Mathlib.Data.Finset.Insert
import Mathlib.Data.Finset.Erase
import OsPrograms.Lib.Printf
import OsPrograms.Lib.TransitionSystem

/-!
# The socket path of `unix_calc_server`

The server and its client get the path of the socket as an argument. Both copy it into `sun_path`
with `snprintf`, which keeps its first 107 bytes, and pass that copy to `bind` and to `connect`. The
server removes a socket that an earlier server left behind, with `unlink` on the argument itself.

The file system is the set of names in it, all of which can be removed; a server may be killed at
any time, which leaves its socket there. `bind` fails when the name exists. The empty name is not in
the file system: Linux takes it for an abstract address, which is free again when its server ends.

## Main results

- `socketPath_iff`: the name that `unlink` removes is the name that `bind` creates exactly when the
  path has at most 107 bytes, and exactly then does every start get past `bind`; the client uses the
  name of `bind` for every path.
-/

namespace UnixCalcServer.SocketPath

open Printf

/-- The size of `sun_path`. -/
def sunPathSize : ℕ := 108

/-- The name that the server removes, given the argument `path`. -/
def unlinkName (path : List UInt8) : List UInt8 :=
  path

/-- The name that the server binds its socket to, given the argument `path`. -/
def bindName (path : List UInt8) : List UInt8 :=
  (snprintf sunPathSize path).2

/-- The name that the client connects to, given the argument `path`. -/
def connectName (path : List UInt8) : List UInt8 :=
  (snprintf sunPathSize path).2

/-- The server, as far as it concerns names. -/
inductive Server
  /-- It does not run. -/
  | down
  /-- Before `unlink(path)`. -/
  | unlink
  /-- Before `bind`. -/
  | bind
  /-- It accepts connections to `name`. -/
  | listening (name : List UInt8)
  /-- It has ended with "bind/listen". -/
  | died
  deriving DecidableEq, Repr

/-- The names in the file system, and the server. -/
structure State where
  /-- The names that exist. -/
  names : Finset (List UInt8)
  /-- The server. -/
  server : Server
  deriving DecidableEq

/-- One step. -/
inductive Action
  /-- The program is started. -/
  | start
  /-- The server executes its next statement. -/
  | main
  /-- The server is killed. -/
  | kill
  deriving DecidableEq, Repr

/-- One step of a server that is started with the argument `path`, again and again. -/
def step (path : List UInt8) (s : State) : Action → Option State
  | .start =>
    match s.server with
    | .down | .died => some { s with server := .unlink }
    | _ => none
  | .main =>
    match s.server with
    | .unlink => some { names := s.names.erase (unlinkName path), server := .bind }
    | .bind =>
      -- an abstract address
      if bindName path = [] then
        some { s with server := .listening [] }
      else if bindName path ∈ s.names then
        some { s with server := .died }
      else
        some { names := insert (bindName path) s.names, server := .listening (bindName path) }
    | _ => none
  | .kill =>
    match s.server with
    | .unlink | .bind | .listening _ => some { s with server := .down }
    | _ => none

/-- The system, from any file system. -/
def system (path : List UInt8) (names : Finset (List UInt8)) : TransitionSystem State Action where
  init := { names := names, server := .down }
  step := step path

section

variable {path : List UInt8} {names : Finset (List UInt8)} {s s' : State}

/-- `snprintf` stores the whole path exactly when it fits the field of the address. -/
theorem bindName_eq_iff : bindName path = path ↔ path.length < sunPathSize :=
  snprintf_stored_eq_iff (by decide)

/-- What a step can do to the server and to the names. -/
inductive Effect (path : List UInt8) (s : State) : State → Prop
  | start : Effect path s { s with server := .unlink }
  | unlink : s.server = .unlink →
      Effect path s { names := s.names.erase (unlinkName path), server := .bind }
  | bindAbstract : bindName path = [] → Effect path s { s with server := .listening [] }
  | bindFails : s.server = .bind → bindName path ∈ s.names →
      Effect path s { s with server := .died }
  | bind : Effect path s
      { names := insert (bindName path) s.names, server := .listening (bindName path) }
  | kill : Effect path s { s with server := .down }

/-- What the steps of the program do to the name. -/
theorem effect_of_step {a : Action} (h : step path s a = some s') : Effect path s s' := by
  obtain ⟨names, server⟩ := s
  cases a <;> cases server <;> simp only [step, reduceCtorEq, Option.some.injEq] at h
  case main.bind =>
    split_ifs at h with hempty hmem
    · obtain rfl := Option.some.inj h
      exact .bindAbstract hempty
    · obtain rfl := Option.some.inj h
      exact .bindFails rfl hmem
    · obtain rfl := Option.some.inj h
      exact .bind
  case main.unlink =>
    subst h
    exact .unlink rfl
  all_goals subst h
  case start.down | start.died => exact .start
  all_goals exact .kill

/-- The server listens on the name that was bound, so the client's name is the same. -/
theorem listening_of_reachable (h : (system path names).Reachable s) :
    ∀ name, s.server = .listening name → name = bindName path := by
  refine h.invariant (P := fun s => ∀ name, s.server = .listening name → name = bindName path)
    ?_ ?_
  · intro name hname
    cases hname
  · intro s a s' _ hstep name hname
    cases effect_of_step hstep with
    | start | unlink | bindFails | kill => cases hname
    | bindAbstract hempty =>
      cases hname
      exact hempty.symm
    | bind =>
      cases hname
      rfl

/-- When `unlink` and `bind` use the same name, `bind` finds it free. -/
theorem not_died_of_reachable (hpath : bindName path = path)
    (h : (system path names).Reachable s) : s.server ≠ .died := by
  -- between the two calls nobody else creates the name
  have hinv : (s.server = .bind → path ∉ s.names) ∧ s.server ≠ .died := by
    refine h.invariant (P := fun s => (s.server = .bind → path ∉ s.names) ∧ s.server ≠ .died)
      ⟨by simp [system], by simp [system]⟩ ?_
    intro s a s' hs hstep
    cases effect_of_step hstep with
    | start | bindAbstract | bind | kill => exact ⟨by simp, by simp⟩
    | unlink => exact ⟨fun _ => Finset.notMem_erase path s.names, by simp⟩
    | bindFails hserver hmem =>
      rw [hpath] at hmem
      exact absurd hmem (hs.1 hserver)
  exact hinv.2

/-- With a longer path, a server that is killed while it listens keeps the next from starting. -/
theorem died_of_long (path : List UInt8) (hpath : sunPathSize ≤ path.length) :
    ∃ s, (system path ∅).Reachable s ∧ s.server = .died := by
  have hne : bindName path ≠ unlinkName path := by
    intro h
    exact absurd (bindName_eq_iff.mp h) (by omega)
  have hnonempty : bindName path ≠ [] := by
    intro h
    have hlen := congrArg List.length h
    simp only [bindName, snprintf, List.length_take, sunPathSize, List.length_nil] at hlen hpath
    omega
  -- the first server is killed after its `bind`, the second removes another name
  have hrun : (system path ∅).run (system path ∅).init
      [.start, .main, .main, .kill, .start, .main, .main] =
        some { names := {bindName path}, server := .died } := by
    simp [TransitionSystem.run, system, step, hnonempty, hne.symm]
  exact ⟨_, TransitionSystem.reachable_of_run hrun, rfl⟩

/-- `unlink` removes the name that `bind` creates exactly when the path fits `sun_path` with its
NUL, and exactly then does every start in every sequence of starts and kills get past `bind`. A
client with the same argument always uses the name the server listens on. -/
theorem socketPath_iff (path : List UInt8) :
    (unlinkName path = bindName path ↔ path.length ≤ 107) ∧
      ((∀ names s, (system path names).Reachable s → s.server ≠ .died) ↔ path.length ≤ 107) ∧
      ∀ names s name, (system path names).Reachable s → s.server = .listening name →
        connectName path = name := by
  have hfits : bindName path = path ↔ path.length ≤ 107 :=
    bindName_eq_iff.trans Nat.lt_succ_iff
  refine ⟨?_, ⟨?_, ?_⟩, ?_⟩
  · rw [← hfits]
    exact eq_comm
  · intro hstarts
    by_contra hlong
    obtain ⟨s, hs, hdied⟩ := died_of_long path (by simp only [sunPathSize]; omega)
    exact hstarts ∅ s hs hdied
  · intro hlen names s hs
    exact not_died_of_reachable (hfits.mpr hlen) hs
  · intro names s name hs hname
    exact (listening_of_reachable hs name hname).symm

/-- A path of 108 bytes: the second start fails. -/
theorem socketPath_too_long :
    ¬∀ (path : List UInt8) (names : Finset (List UInt8)) (s : State),
      (system path names).Reachable s → s.server ≠ .died := by
  intro hclaim
  obtain ⟨s, hs, hdied⟩ :=
    died_of_long (List.replicate 108 'a'.toUInt8) (by simp [sunPathSize])
  exact hclaim _ ∅ s hs hdied

end

end UnixCalcServer.SocketPath
