import Ephemera.Cluster.Decision

/-! # Scripts of entry processors

A script may read and change its entry any number of times, but only one thing is done to the key in
the end. Told on a plain optional value: the last change decides, and it leaves a value or takes it
away; a script that changes nothing is a read if it reads the value, and nothing otherwise. The draft on
which a processor works remembers just this.
-/

namespace Ephemera

universe u v w

/-! ## Scripts on a plain value -/

namespace Command

variable {V : Type v}

/-- Whether the command changes the value. -/
def changes : Command V → Bool
  | .probe | .value => false
  | .set _ | .append _ | .remove => true

/-- Whether the command only reads the value. -/
def reads : Command V → Bool
  | .value => true
  | .probe | .set _ | .append _ | .remove => false

/-- The last command of a script that changes the value. -/
def lastChange? (script : List (Command V)) : Option (Command V) :=
  script.reverse.find? (·.changes)

/-- What a command makes of a plain value, and its reply. -/
def onValue [Append V] [Inhabited V] (current : Option V) : Command V → Option V × Reply V
  | .probe => (current, .flag current.isSome)
  | .value => (current, .value current)
  | .set given => (some given, .done)
  | .append suffix => (some (current.getD default ++ suffix), .value current)
  | .remove => (none, .done)

/-- What a script makes of a plain value, and its replies. -/
def evaluate [Append V] [Inhabited V] : List (Command V) → Option V → Option V × List (Reply V)
  | [], current => (current, [])
  | command :: rest, current =>
    let (current, reply) := command.onValue current
    let (current, replies) := evaluate rest current
    (current, reply :: replies)

/-- What became of the script is what its last change comes to, or without a change what its reads
come to. A value that was put is the one that the script ends with. -/
def ComesTo {α : Type w} [Append V] [Inhabited V] (script : List (Command V)) (live : Option V)
    (became : α) (put : V → α) (remove read ignore : α) : Prop :=
  match lastChange? script with
  | some .remove => became = remove
  | some _ => ∃ final, (evaluate script live).1 = some final ∧ became = put final
  | none => became = if script.any reads then read else ignore

theorem lastChange?_cons (command : Command V) (rest : List (Command V)) :
    lastChange? (command :: rest) =
      (lastChange? rest).or (if command.changes then some command else none) := by
  unfold lastChange?
  rw [List.reverse_cons, List.find?_append]
  cases hchanges : command.changes <;> simp [hchanges]

theorem any_changes (script : List (Command V)) :
    script.any (·.changes) = (lastChange? script).isSome := by
  rw [Bool.eq_iff_iff, lastChange?, List.find?_isSome, List.any_eq_true]
  simp only [List.mem_reverse]

variable [Append V] [Inhabited V]

/-- A script that changes nothing leaves the value as it is. -/
theorem evaluate_of_lastChange? {script : List (Command V)} (h : lastChange? script = none)
    (live : Option V) : (evaluate script live).1 = live := by
  induction script with
  | nil => rfl
  | cons command rest ih =>
      rw [lastChange?_cons, Option.or_eq_none_iff] at h
      have hrest := ih h.1
      cases command with
      | probe | value => exact hrest
      | set | append | remove => cases h.2

/-- A script whose last change takes the value away ends without one. -/
theorem evaluate_of_remove {script : List (Command V)} (h : lastChange? script = some .remove)
    (live : Option V) : (evaluate script live).1 = none := by
  induction script generalizing live with
  | nil => cases h
  | cons command rest ih =>
      rw [lastChange?_cons, Option.or_eq_some_iff] at h
      rcases h with hlater | ⟨hunchanged, hlast⟩
      · exact ih hlater _
      · cases command with
        | remove => exact evaluate_of_lastChange? hunchanged none
        | probe | value | set | append => cases hlast

/-- Whatever is a function of what became of the script follows it. -/
theorem ComesTo.map {α : Type w} {β : Type u} {script : List (Command V)} {live : Option V}
    {became : α} {put : V → α} {remove read ignore : α}
    (h : ComesTo script live became put remove read ignore) (f : α → β) :
    ComesTo script live (f became) (f ∘ put) (f remove) (f read) (f ignore) := by
  unfold ComesTo at h ⊢
  split
  next hlast =>
    simp only [hlast] at h
    exact congrArg f h
  next last hne hlast =>
    simp only [hlast] at h
    obtain ⟨final, hfinal, hbecame⟩ := h
    exact ⟨final, hfinal, congrArg f hbecame⟩
  next hlast =>
    simp only [hlast] at h
    rw [h]
    split <;> rfl

end Command

/-! ## The draft of a script -/

namespace Draft

variable {V : Type v} [Append V] [Inhabited V]

omit [Append V] [Inhabited V] in
@[simp]
theorem value_read (d : Draft V) : d.read.value = d.value := by
  unfold read
  split <;> rfl

omit [Append V] [Inhabited V] in
@[simp]
theorem read_read (d : Draft V) : d.read.read = d.read := by
  obtain ⟨value, action⟩ := d
  cases action <;> rfl

/-- A command does to the value of a draft, and replies, what it does to a plain value. -/
theorem run_eq_onValue (d : Draft V) (command : Command V) :
    ((d.run command).1.value, (d.run command).2) = command.onValue d.value := by
  cases command with
  | value => exact congrArg (·, Reply.value d.value) d.value_read
  | probe | set | append | remove => rfl

/-- So does a script. -/
theorem runScript_eq_evaluate (script : List (Command V)) (d : Draft V) :
    ((runScript script d).1.value, (runScript script d).2) = Command.evaluate script d.value := by
  induction script generalizing d with
  | nil => rfl
  | cons command rest ih =>
      simp only [Command.evaluate, runScript, ← run_eq_onValue, ← ih]

/-- The draft remembers the last change; before the first it remembers whether the value was
read. -/
theorem action_runScript (script : List (Command V)) (d : Draft V) :
    Command.ComesTo script d.value (runScript script d).1.action .set .remove d.read.action
      d.action := by
  induction script generalizing d with
  | nil => rfl
  | cons command rest ih =>
      have hrest := ih (d.run command).1
      have hran : (runScript (command :: rest) d).1 = (runScript rest (d.run command).1).1 := rfl
      have hfinal : (Command.evaluate (command :: rest) d.value).1 =
          (Command.evaluate rest (d.run command).1.value).1 := by
        simp only [Command.evaluate, ← run_eq_onValue]
      unfold Command.ComesTo at hrest ⊢
      rw [hran, hfinal, Command.lastChange?_cons]
      cases hlast : Command.lastChange? rest with
      | some last =>
          simp only [hlast] at hrest
          cases last <;> exact hrest
      | none =>
          -- Nothing after this command counts but reads, and these only if it was no change itself.
          simp only [hlast] at hrest
          rw [Command.evaluate_of_lastChange? hlast]
          cases command with
          | probe => exact hrest
          | value =>
              have hreads : (Command.value :: rest).any (·.reads) = true := rfl
              rw [if_pos hreads]
              refine hrest.trans ?_
              rw [show (d.run .value).1 = d.read from rfl, read_read, ite_self]
          | set given => exact ⟨given, rfl, hrest.trans (ite_self _)⟩
          | append suffix =>
              exact ⟨d.value.getD default ++ suffix, rfl, hrest.trans (ite_self _)⟩
          | remove => exact hrest.trans (ite_self _)

end Draft

/-! ## One decision -/

namespace Decision

variable {V : Type v}

/-- Leave the entry alone. -/
def ignore : Decision V Unit :=
  fun _ => (.ignore, ())

variable [Append V] [Inhabited V]

/-- The replies of a script are those of the same script on a plain value. -/
theorem replies_invoke (script : List (Command V)) (live : Option V) :
    (invoke script live).2 = (Command.evaluate script live).2 :=
  congrArg (·.2) (Draft.runScript_eq_evaluate script { value := live })

/-- The intent of a script is that of one of four decisions. -/
theorem intent_invoke (script : List (Command V)) (live : Option V) :
    Command.ComesTo script live (invoke script live).1 (fun final => (put final live).1)
      (remove live).1 (get live).1 (ignore live).1 := by
  have hintent := (Draft.action_runScript script { value := live }).map
    fun action => Draft.intent { value := live, action } live.isSome
  cases live with
  | none => exact hintent
  | some value => exact hintent

end Decision

end Ephemera
