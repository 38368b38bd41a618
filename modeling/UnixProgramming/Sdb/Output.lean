import UnixProgramming.Sdb.Fuel
import UnixProgramming.Sdb.Outcome

/-!
# What a command prints

The texts among the effects of a command, in the order in which they appear.
-/

namespace UnixProgramming.Sdb

open Memory Stateful Text

variable {κ : Type}

def Effect.text? : Effect → Option String
  | .stderr text => some text
  | .ptrace _ _ => none
  | .fork => none

/-- The texts printed so far, last first. -/
def World.said (w : World κ) : List String := w.log.filterMap Effect.text?

/-- The command comes back and has printed these texts. -/
def Shows (host : Host κ) (cmd : Command) (w : World κ) (texts : List String) : Prop :=
  ∃ w', Step host cmd w w' ∧ w'.said = texts.reverse ++ w.said

variable {host : Host κ} {cmd : Command} {w : World κ}

theorem Shows.unique {texts texts' : List String} (h : Shows host cmd w texts)
    (h' : Shows host cmd w texts') : texts = texts' := by
  obtain ⟨w₁, step₁, said₁⟩ := h
  obtain ⟨w₂, step₂, said₂⟩ := h'
  obtain rfl := step₁.unique step₂
  exact List.reverse_injective (List.append_cancel_right (said₁.symm.trans said₂))

theorem said_stderr (texts : List String) (log : List Effect) :
    ((texts.map Effect.stderr).reverse ++ log).filterMap Effect.text? =
      texts.reverse ++ log.filterMap Effect.text? := by
  rw [List.filterMap_append, List.filterMap_reverse, List.filterMap_map]
  congr 2
  exact List.filterMap_some

/-- A command that adds nothing but these texts, and possibly requests before them. -/
theorem Shows.of_log {n : Nat} {texts : List String} (log : List Effect)
    (ran : exec host n cmd w =
      .ok () { w with log := (texts.map Effect.stderr).reverse ++ log })
    (before : log.filterMap Effect.text? = w.said) : Shows host cmd w texts := by
  refine ⟨_, ⟨n, ran⟩, ?_⟩
  rw [World.said, said_stderr, before]

/-- A loop that prints one text for each element. -/
theorem forIn_stderr {α : Type} (xs : List α) (text : α → String) (w : World κ) :
    (forIn xs PUnit.unit fun x _ => do
      stderr (text x)
      pure (ForInStep.yield PUnit.unit) : Cmd κ PUnit) w =
      .ok PUnit.unit { w with log := ((xs.map text).map Effect.stderr).reverse ++ w.log } := by
  induction xs generalizing w with
  | nil => rfl
  | cons x xs ih =>
    rw [List.forIn_cons]
    simp only [bind_apply, stderr, emit, modify_apply, pure_apply] at ih ⊢
    rw [ih]
    simp

section Says

variable {α β γ : Type}

/-- The program comes back with `a`, prints these texts and changes nothing but the log. -/
def Says (m : Cmd κ α) (w : World κ) (a : α) (texts : List String) : Prop :=
  ∃ log, m w = .ok a { w with log := log } ∧ log.filterMap Effect.text? = texts.reverse ++ w.said

theorem Says.pure (a : α) (w : World κ) : Says (pure a) w a [] := ⟨w.log, rfl, rfl⟩

theorem Says.get (w : World κ) : Says get w w [] := ⟨w.log, rfl, rfl⟩

theorem Says.stderr (text : String) (w : World κ) : Says (Sdb.stderr text) w () [text] :=
  ⟨.stderr text :: w.log, rfl, rfl⟩

theorem Says.bind {m : Cmd κ α} {f : α → Cmd κ β} {a : α} {b : β} {texts texts' : List String}
    (first : Says m w a texts) (second : ∀ log, Says (f a) { w with log := log } b texts') :
    Says (m >>= f) w b (texts ++ texts') := by
  obtain ⟨log, ran, said⟩ := first
  obtain ⟨log', ran', said'⟩ := second log
  refine ⟨log', ?_, ?_⟩
  · rw [bind_apply, ran]
    exact ran'
  · rw [said', List.reverse_append, List.append_assoc, ← said]
    rfl

/-- A loop prints the texts of its turns. -/
theorem Says.forIn {f : γ → PUnit → Cmd κ (ForInStep PUnit)} {texts : γ → List String}
    {xs : List γ} (turn : ∀ x ∈ xs, ∀ log, Says (f x ⟨⟩) { w with log := log } (.yield ⟨⟩) (texts x)) :
    Says (forIn xs PUnit.unit f) w ⟨⟩ (xs.flatMap texts) := by
  induction xs generalizing w with
  | nil => exact .pure _ _
  | cons x xs ih =>
    rw [List.forIn_cons, List.flatMap_cons]
    refine .bind (turn x List.mem_cons_self w.log) fun log => ?_
    exact ih fun y later log' => turn y (List.mem_cons_of_mem _ later) log'

theorem Says.shows {n : Nat} {texts : List String} (said : Says (exec host n cmd) w () texts) :
    Shows host cmd w texts := by
  obtain ⟨log, ran, printed⟩ := said
  exact ⟨_, ⟨n, ran⟩, printed⟩

end Says

theorem hex_inj {v v' : BitVec 64} : hex v = hex v' ↔ v = v' := by
  refine ⟨fun same => BitVec.eq_of_toNat_eq ?_, congrArg hex⟩
  have digits : Nat.toDigits 16 v.toNat = Nat.toDigits 16 v'.toNat := String.ofList_injective same
  rw [← (spells_hex v.toNat).value, digits, (spells_hex v'.toNat).value]

end UnixProgramming.Sdb
