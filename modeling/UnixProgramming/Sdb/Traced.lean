import Mathlib.Data.List.ReduceOption
import UnixProgramming.Foundation.Transition
import UnixProgramming.Sdb.Debuggee

/-!
# The kernel's side of `ptrace`, with signals

`World` has of the child what the debugger can see. The kernel also knows the signal that
has stopped a process, and the one that a request passes to it. `PTRACE_CONT` and
`PTRACE_SINGLESTEP` deliver the signal they pass; 0 discards the signal of the stop.
-/

namespace UnixProgramming.Sdb

open Memory Transition

variable {κ : Type}

section Alone

/-- What becomes of a process when a signal is delivered: it enters a handler, takes the
default action, or goes on. -/
abbrev Action (κ : Type) := Signal → Tracee κ → Event κ

def ignore : Action κ := fun _ t => .next t

/-- A process, and the signal that it is about to receive. -/
abbrev Alive (κ : Type) := Tracee κ × Option Signal

/-- What happens next to a process on its own. -/
def Program.event (p : Program κ) (action : Action κ) : Alive κ → Event κ
  | (t, none) => p.step t
  | (t, some sig) => action sig t

/-- What a request changes in a process. -/
def Request.apply (r : Request) (t : Tracee κ) : Tracee κ :=
  match r with
  | .pokeText addr word => { t with mem := (poke t.mem addr word).getD t.mem }
  | .setRegs regs => { t with regs := regs }
  | .peekText _ | .getRegs | .singleStep _ | .cont _ | .setOptions => t

/-- A process goes on by itself, or somebody writes into it. -/
inductive Program.Own (p : Program κ) (action : Action κ) :
    Option Request → Alive κ → Alive κ → Prop where
  | next {s t} : p.event action s = .next t → Own p action none s (t, none)
  | stop {s sig t} : p.event action s = .stop sig t → Own p action none s (t, some sig)
  | write {s} (r) : Own p action (some r) s (r.apply s.1, s.2)

variable {p : Program κ} {action : Action κ}

/-- A process that is resumed goes on by itself to the event that is reported. -/
theorem Program.resume_own {n : Nat} {t : Tracee κ} {e : Event κ} (answer : p.resume n t = some e) :
    ∃ k t', Run (p.Own action) (List.replicate k none) (t, none) (t', none) ∧ p.step t' = e := by
  induction n generalizing t with
  | zero => cases answer
  | succ n ih =>
    cases moved : p.step t with
    | next t₁ =>
      simp only [Program.resume, moved] at answer
      obtain ⟨k, t', run, last⟩ := ih answer
      exact ⟨k + 1, t', .cons (.next moved) run, last⟩
    | stop sig t₁ =>
      simp only [Program.resume, moved] at answer
      exact ⟨0, t, .nil, moved.trans (Option.some.inj answer)⟩
    | exited code =>
      simp only [Program.resume, moved] at answer
      exact ⟨0, t, .nil, moved.trans (Option.some.inj answer)⟩
    | signaled sig core =>
      simp only [Program.resume, moved] at answer
      exact ⟨0, t, .nil, moved.trans (Option.some.inj answer)⟩

theorem Program.answer_own (action : Action κ) {n : Nat} {how : Resume} {t : Tracee κ} {e : Event κ}
    (answer : p.answer n how t = some e) :
    ∃ k t', Run (p.Own action) (List.replicate k none) (t, none) (t', none) ∧ p.step t' = e := by
  cases how with
  | singleStep => exact ⟨0, t, .nil, Option.some.inj answer⟩
  | cont => exact resume_own answer

end Alone

section Kernel

/-- The signal that the data of a request passes. -/
def signal? (data : Nat) : Option Signal := if h : 0 < data ∧ data ≤ 64 then some ⟨data, h⟩ else none

/-- The event that `waitpid` reports of a process that is resumed with a signal, or without. -/
def Program.answerWith (p : Program κ) (action : Action κ) (n : Nat) (how : Resume) :
    Alive κ → Option (Event κ)
  | (t, none) => p.answer n how t
  | (t, some sig) =>
    match action sig t with
    | .next t' => p.answer n how t'
    | e => some e

/-- A process under `ptrace`: in a stop, with the signal of the stop; resumed, with the signal
that was passed; or at its end. -/
inductive Traced (κ : Type) where
  | stopped (s : Alive κ)
  | resumed (s : Alive κ) (how : Resume)
  | gone (e : Event κ)

/-- The trap of a single step is not a signal of the process. -/
def Event.traced : Event κ → Traced κ
  | .next t => .stopped (t, none)
  | .stop sig t => .stopped (t, some sig)
  | e => .gone e

/-- An entry of the process table, and the requests that have written into the process. -/
structure Proc (κ : Type) where
  pid : Int
  prog : Program κ
  traced : Traced κ
  writes : List Request

def Request.isWrite : Request → Bool
  | .pokeText _ _ | .setRegs _ => true
  | _ => false

/-- What a request does to a process in a stop. -/
def Proc.request (q : Proc κ) (s : Alive κ) : Request → Proc κ
  | .cont data => { q with traced := .resumed (s.1, signal? data) .cont }
  | .singleStep data => { q with traced := .resumed (s.1, signal? data) .singleStep }
  | r => { q with
      traced := .stopped (r.apply s.1, s.2)
      writes := q.writes ++ if r.isWrite then [r] else [] }

/-- What the kernel does, upon something that the debugger does or by itself. A request to
a process that is not there or not in a stop fails. -/
inductive KernelStep (action : Action κ) : Option Effect → Option (Proc κ) → Option (Proc κ) → Prop where
  | stderr {p} (text) : KernelStep action (some (.stderr text)) p p
  | noFork {p} : KernelStep action (some .fork) p p
  | fork {p} (pid prog) : KernelStep action (some .fork) p (some ⟨pid, prog, .stopped (prog.image, none), []⟩)
  | refused {p pid} (r) : (∀ q s, p = some q → q.pid = pid → q.traced ≠ .stopped s) →
      KernelStep action (some (.ptrace pid r)) p p
  | request {q : Proc κ} {s} (r) : q.traced = .stopped s →
      KernelStep action (some (.ptrace q.pid r)) (some q) (some (q.request s r))
  | event {q : Proc κ} {s how n e} : q.traced = .resumed s how → q.prog.answerWith action n how s = some e →
      KernelStep action none (some q) (some { q with traced := e.traced })

end Kernel

section Undisturbed

/-- Where a process on its own is, when the kernel has it so. -/
def Traced.At (p : Program κ) (action : Action κ) (s : Alive κ) : Traced κ → Prop
  | .stopped s' | .resumed s' _ => s = s'
  | .gone e => p.event action s = e

/-- The process has come to where it is by itself, as it reacts to signals, but for what has
been written into it. -/
def Proc.Undisturbed (action : Action κ) (q : Proc κ) : Prop :=
  ∃ ls s, Run (q.prog.Own action) ls (q.prog.image, none) s ∧ ls.reduceOption = q.writes ∧
    q.traced.At q.prog action s

/-- Resuming `s` with the data is as good as leaving it alone. -/
def Obeys (p : Program κ) (deliver action : Action κ) (s : Alive κ) (data : Nat) : Prop :=
  (∃ k, Run (p.Own action) (List.replicate k none) s (s.1, signal? data)) ∧
    ∀ sig, signal? data = some sig → deliver sig s.1 = action sig s.1

variable {p : Program κ} {deliver action : Action κ} {s : Alive κ} {data : Nat}

/-- A process that ignores its signals may be resumed without them. -/
theorem obeys_zero : Obeys p deliver ignore s 0 := by
  obtain ⟨t, sig⟩ := s
  cases sig with
  | none => exact ⟨⟨0, .nil⟩, fun sig found => by cases found⟩
  | some sig => exact ⟨⟨1, .single (.next rfl)⟩, fun sig found => by cases found⟩

/-- Any process may be resumed with the signal that has stopped it. -/
theorem obeys_passed (passed : signal? data = s.2) : Obeys p action action s data := by
  refine ⟨⟨0, ?_⟩, fun _ _ => rfl⟩
  rw [passed]
  exact .nil

/-- The event that is reported comes from the process itself. -/
theorem answerWith_own {n : Nat} {how : Resume} {e : Event κ}
    (same : ∀ sig, s.2 = some sig → deliver sig s.1 = action sig s.1)
    (answer : p.answerWith deliver n how s = some e) :
    ∃ k s', Run (p.Own action) (List.replicate k none) s s' ∧ p.event action s' = e := by
  obtain ⟨t, sig⟩ := s
  cases sig with
  | none =>
    obtain ⟨k, t', run, last⟩ := Program.answer_own action answer
    exact ⟨k, (t', none), run, last⟩
  | some sig =>
    have agreed : deliver sig t = action sig t := same sig rfl
    rw [Program.answerWith, agreed] at answer
    cases acted : action sig t with
    | next t₁ =>
      rw [acted] at answer
      obtain ⟨k, t', run, last⟩ := Program.answer_own action answer
      exact ⟨k + 1, (t', none), .cons (.next acted) run, last⟩
    | stop sig' t₁ =>
      rw [acted] at answer
      exact ⟨0, (t, some sig), .nil, acted.trans (Option.some.inj answer)⟩
    | exited code =>
      rw [acted] at answer
      exact ⟨0, (t, some sig), .nil, acted.trans (Option.some.inj answer)⟩
    | signaled sig' core =>
      rw [acted] at answer
      exact ⟨0, (t, some sig), .nil, acted.trans (Option.some.inj answer)⟩

/-- The process has been undisturbed, and receives what it would receive on its own. -/
structure Proc.Faithful (deliver action : Action κ) (q : Proc κ) : Prop where
  undisturbed : q.Undisturbed action
  receives : ∀ s how, q.traced = .resumed s how → ∀ sig, s.2 = some sig →
    deliver sig s.1 = action sig s.1

/-- The data of a request that resumes. -/
def Request.data? : Request → Option Nat
  | .cont data | .singleStep data => some data
  | _ => none

/-- A resume of a process in a stop is as good as leaving it alone. -/
def Obedient (deliver action : Action κ) (l : Option Effect) (p : Option (Proc κ)) : Prop :=
  ∀ q s r data, p = some q → q.traced = .stopped s → l = some (.ptrace q.pid r) →
    r.data? = some data → Obeys q.prog deliver action s data

variable {l : Option Effect} {p p' : Option (Proc κ)} {q : Proc κ}

theorem Proc.Faithful.resume (h : q.Faithful deliver action) (stopped : q.traced = .stopped s)
    (how : Resume) (obeys : Obeys q.prog deliver action s data) :
    Proc.Faithful deliver action { q with traced := .resumed (s.1, signal? data) how } := by
  obtain ⟨⟨ls, s₀, run, written, here⟩, -⟩ := h
  rw [stopped] at here
  obtain rfl : s₀ = s := here
  obtain ⟨⟨k, more⟩, same⟩ := obeys
  refine ⟨⟨_, _, run.append more, ?_, rfl⟩, fun s how resumed => ?_⟩
  · rw [List.reduceOption_append, List.reduceOption_replicate_none, List.append_nil, written]
  · cases resumed
    exact same

theorem Proc.Faithful.write (h : q.Faithful deliver action) (stopped : q.traced = .stopped s)
    (r : Request) : Proc.Faithful deliver action
      { q with traced := .stopped (r.apply s.1, s.2), writes := q.writes ++ [r] } := by
  obtain ⟨⟨ls, s₀, run, written, here⟩, -⟩ := h
  rw [stopped] at here
  obtain rfl : s₀ = s := here
  refine ⟨⟨_, _, run.snoc (.write r), ?_, rfl⟩, fun s how resumed => by cases resumed⟩
  rw [List.reduceOption_append, written]
  rfl

theorem Proc.Faithful.request (h : q.Faithful deliver action) (stopped : q.traced = .stopped s)
    (r : Request) (obeys : ∀ data, r.data? = some data → Obeys q.prog deliver action s data) :
    Proc.Faithful deliver action (q.request s r) := by
  have unread (r : Request) (read : r.apply s.1 = s.1) : Proc.Faithful deliver action
      { q with traced := .stopped (r.apply s.1, s.2), writes := q.writes ++ [] } := by
    rw [read, List.append_nil, ← stopped]
    exact h
  cases r with
  | cont data => exact h.resume stopped .cont (obeys data rfl)
  | singleStep data => exact h.resume stopped .singleStep (obeys data rfl)
  | pokeText addr word => exact h.write stopped _
  | setRegs regs => exact h.write stopped _
  | peekText addr => exact unread (.peekText addr) rfl
  | getRegs => exact unread .getRegs rfl
  | setOptions => exact unread .setOptions rfl

theorem Proc.Faithful.event (h : q.Faithful deliver action) {how : Resume} {n : Nat} {e : Event κ}
    (resumed : q.traced = .resumed s how) (answer : q.prog.answerWith deliver n how s = some e) :
    Proc.Faithful deliver action { q with traced := e.traced } := by
  obtain ⟨⟨ls, s₀, run, written, here⟩, receives⟩ := h
  rw [resumed] at here
  obtain rfl : s₀ = s := here
  obtain ⟨k, s', more, last⟩ := answerWith_own (receives _ _ resumed) answer
  have whole := run.append more
  have same : (ls ++ List.replicate k none).reduceOption = q.writes := by
    rw [List.reduceOption_append, List.reduceOption_replicate_none, List.append_nil, written]
  have silent (s₁ : Alive κ) (step : q.prog.Own action none s' s₁) : ∃ ls,
      Run (q.prog.Own action) ls (q.prog.image, none) s₁ ∧ ls.reduceOption = q.writes := by
    refine ⟨_, whole.snoc step, ?_⟩
    rw [List.reduceOption_append, same]
    exact List.append_nil _
  cases e with
  | next t =>
    obtain ⟨ls', run', same'⟩ := silent _ (.next last)
    exact ⟨⟨ls', _, run', same', rfl⟩, fun s how resumed => by cases resumed⟩
  | stop sig t =>
    obtain ⟨ls', run', same'⟩ := silent _ (.stop last)
    exact ⟨⟨ls', _, run', same', rfl⟩, fun s how resumed => by cases resumed⟩
  | exited code => exact ⟨⟨_, _, whole, same, last⟩, fun s how resumed => by cases resumed⟩
  | signaled sig core => exact ⟨⟨_, _, whole, same, last⟩, fun s how resumed => by cases resumed⟩

theorem KernelStep.faithful (step : KernelStep deliver l p p') (obedient : Obedient deliver action l p)
    (before : ∀ q, p = some q → q.Faithful deliver action) :
    ∀ q, p' = some q → q.Faithful deliver action := by
  rintro q rfl
  cases step with
  | stderr text => exact before q rfl
  | noFork => exact before q rfl
  | fork pid prog => exact ⟨⟨[], _, .nil, rfl, rfl⟩, fun s how resumed => by cases resumed⟩
  | refused r => exact before q rfl
  | request r stopped =>
    exact (before _ rfl).request stopped r fun data some_data => obedient _ _ _ _ rfl stopped rfl some_data
  | event resumed answer => exact (before _ rfl).event resumed answer

/-- What the kernel and a debugger do together disturbs no process that is resumed like that. -/
theorem undisturbed_of_obedient {labels : List (Option Effect)}
    (run : Run (fun l p p' => KernelStep deliver l p p' ∧ Obedient deliver action l p) labels none p)
    (found : p = some q) : q.Undisturbed action := by
  have faithful := run.invariant (I := fun p => ∀ q, p = some q → q.Faithful deliver action)
    (fun _ _ _ before both => both.1.faithful both.2 before) (fun q found => by cases found)
  exact (faithful q found).undisturbed

/-- The data of every resume is the signal of the stop. -/
def PassesSignal (l : Option Effect) (p : Option (Proc κ)) : Prop :=
  ∀ q s r data, p = some q → q.traced = .stopped s → l = some (.ptrace q.pid r) →
    r.data? = some data → signal? data = s.2

/-- A debugger that passes on the signal of every stop disturbs no process. -/
theorem undisturbed_of_passesSignal {labels : List (Option Effect)}
    (run : Run (fun l p p' => KernelStep action l p p' ∧ PassesSignal l p) labels none p)
    (found : p = some q) : q.Undisturbed action := by
  refine undisturbed_of_obedient (run.mono fun _ _ _ _ both => ⟨both.1, ?_⟩) found
  intro q s r data here stopped asked resumes
  exact obeys_passed (both.2 q s r data here stopped asked resumes)

end Undisturbed

end UnixProgramming.Sdb
