import Mathlib.Data.List.Induction
import Mathlib.Data.List.Infix
import Ephemera.Network

/-! # The mail of a node

What reaches a node can be told from the events of an exchange alone: messages are delivered in the order in
which they were shipped, up to the first stop of the inbox, at which those that still wait are doomed; they
stay queued until the inbox notices the stop, and are lost then. `Mail` keeps this account and knows nothing
of stores.
-/

namespace Ephemera

universe u v

namespace Exchange

/-! ## Events -/

/-- What can happen in an exchange. -/
inductive Event (κ : Type u) (V : Type v) where
  /-- A message is shipped to a node. -/
  | ship (node : Nat) (m : Message κ V)
  /-- The oldest message at a node is delivered. -/
  | deliver (node : Nat)
  /-- Every message is delivered, and every inbox that has been told to stop notices it. -/
  | settle
  /-- A wait for the acknowledgements returns. -/
  | wait
  /-- The inbox of a node is told to stop. -/
  | stop (node : Nat)
  /-- The inbox of a node notices that it has been told to stop. -/
  | close (node : Nat)
  deriving DecidableEq, Repr

/-- The message that an event ships to the node, if it does. -/
def Event.shipped? {κ : Type u} {V : Type v} (node : Nat) : Event κ V → Option (Message κ V)
  | .ship other m => if other = node then some m else none
  | .deliver _ | .settle | .wait | .stop _ | .close _ => none

/-! ## One event -/

/-- What reaches one node. -/
structure Mail (κ : Type u) (V : Type v) where
  /-- The messages that have been delivered, in turn. -/
  delivered : List (Message κ V) := []
  /-- The messages that will be delivered next. -/
  waiting : List (Message κ V) := []
  /-- The messages that are queued at an inbox that has been told to stop, and will not be delivered. -/
  doomed : List (Message κ V) := []
  /-- Whether the inbox has been told to stop. -/
  stopped : Bool := false
  /-- Whether the inbox has noticed, and takes no more messages. -/
  closed : Bool := false
  deriving DecidableEq, Repr

namespace Mail

variable {κ : Type u} {V : Type v}

/-- The messages that an event delivers to the node. -/
def arrivals (node : Nat) (mail : Mail κ V) : Event κ V → List (Message κ V)
  | .deliver other => if other = node then mail.waiting.take 1 else []
  | .settle => mail.waiting
  | .ship .. | .wait | .stop _ | .close _ => []

/-- The mail of the node after an event. -/
def pass (node : Nat) (mail : Mail κ V) : Event κ V → Mail κ V
  | .ship other m =>
    if other = node ∧ mail.closed = false then
      if mail.stopped then { mail with doomed := mail.doomed ++ [m] }
      else { mail with waiting := mail.waiting ++ [m] }
    else mail
  | .deliver other =>
    if other = node then
      { mail with
        delivered := mail.delivered ++ mail.waiting.take 1
        waiting := mail.waiting.drop 1 }
    else mail
  | .settle =>
    { mail with
      delivered := mail.delivered ++ mail.waiting
      waiting := []
      doomed := []
      closed := mail.stopped }
  | .wait => mail
  | .stop other =>
    if other = node ∧ mail.stopped = false then
      { mail with waiting := [], doomed := mail.waiting, stopped := true }
    else mail
  | .close other =>
    if other = node ∧ mail.stopped = true then { mail with doomed := [], closed := true } else mail

/-- The messages that are queued at the node. -/
def queue (mail : Mail κ V) : List (Message κ V) :=
  mail.waiting ++ mail.doomed

/-- An inbox that was stopped delivers nothing, only such an inbox dooms messages, and one that is closed
holds none. -/
structure Sound (mail : Mail κ V) : Prop where
  waiting : mail.stopped = true → mail.waiting = []
  doomed : mail.stopped = false ∨ mail.closed = true → mail.doomed = []
  closed : mail.closed = true → mail.stopped = true

variable {node : Nat} {mail : Mail κ V}

theorem delivered_pass (event : Event κ V) :
    (mail.pass node event).delivered = mail.delivered ++ mail.arrivals node event := by
  cases event with
  | deliver other =>
      rw [pass, arrivals]
      split
      · rfl
      · exact (List.append_nil _).symm
  | ship =>
      rw [pass, arrivals, List.append_nil]
      split
      · split <;> rfl
      · rfl
  | stop | close =>
      rw [pass, arrivals, List.append_nil]
      split <;> rfl
  | settle => rfl
  | wait => exact (List.append_nil _).symm

theorem arrivals_prefix_waiting (event : Event κ V) : mail.arrivals node event <+: mail.waiting := by
  cases event with
  | deliver other =>
      rw [Mail.arrivals]
      split
      · exact List.take_prefix ..
      · exact List.nil_prefix
  | settle => exact List.prefix_rfl
  | ship | wait | stop | close => exact List.nil_prefix

theorem Sound.arrivals (h : mail.Sound) (hstopped : mail.stopped = true) (event : Event κ V) :
    mail.arrivals node event = [] :=
  List.prefix_nil.1 (h.waiting hstopped ▸ arrivals_prefix_waiting event)

theorem Sound.closed_of_running (h : mail.Sound) (hopen : mail.stopped = false) :
    mail.closed = false := by
  cases hclosed : mail.closed with
  | false => rfl
  | true => exact (h.closed hclosed).symm.trans hopen

theorem stopped_pass (event : Event κ V) (h : mail.stopped = true) :
    (mail.pass node event).stopped = true := by
  cases event with
  | ship =>
      rw [pass, if_pos h]
      split <;> exact h
  | deliver | close =>
      rw [pass]
      split <;> exact h
  | stop =>
      rw [pass]
      split
      · rfl
      · exact h
  | settle | wait => exact h

theorem stopped_of_pass {event : Event κ V} (h : (mail.pass node event).stopped = false) :
    mail.stopped = false := by
  cases hstopped : mail.stopped with
  | false => rfl
  | true => exact (stopped_pass event hstopped).symm.trans h

theorem Sound.pass (h : mail.Sound) (event : Event κ V) : (mail.pass node event).Sound := by
  cases event with
  | ship other m =>
      rw [Mail.pass]
      split
      next htaken =>
        split
        next hstopped =>
          refine ⟨h.waiting, fun hempty => ?_, h.closed⟩
          simp [hstopped, htaken.2] at hempty
        next hopen => exact ⟨fun hstopped => absurd hstopped hopen, h.doomed, h.closed⟩
      next => exact h
  | deliver other =>
      rw [Mail.pass]
      split
      · exact ⟨fun hstopped => by rw [h.waiting hstopped]; rfl, h.doomed, h.closed⟩
      · exact h
  | settle => exact ⟨fun _ => rfl, fun _ => rfl, id⟩
  | wait => exact h
  | stop other =>
      rw [Mail.pass]
      split
      next hopen =>
        refine ⟨fun _ => rfl, fun hempty => ?_, fun _ => rfl⟩
        simp [h.closed_of_running hopen.2] at hempty
      next => exact h
  | close other =>
      rw [Mail.pass]
      split
      next hstopped => exact ⟨h.waiting, fun _ => rfl, fun _ => hstopped.2⟩
      next => exact h

/-- Unless the inbox has been stopped, messages only move on. -/
theorem Sound.arrivals_append_waiting (hsound : mail.Sound) (event : Event κ V)
    (h : (mail.pass node event).stopped = false) :
    mail.arrivals node event ++ (mail.pass node event).waiting =
      mail.waiting ++ (event.shipped? node).toList := by
  cases event with
  | ship other m =>
      have hopen := stopped_of_pass h
      by_cases hnode : other = node
      · simp [Mail.arrivals, Mail.pass, Event.shipped?, hnode, hopen, hsound.closed_of_running hopen]
      · simp [Mail.arrivals, Mail.pass, Event.shipped?, hnode]
  | deliver other =>
      by_cases hnode : other = node
      · simp only [Mail.arrivals, Mail.pass, Event.shipped?, hnode, if_true, Option.toList_none,
          List.append_nil, List.take_append_drop]
      · simp [Mail.arrivals, Mail.pass, Event.shipped?, hnode]
  | settle => rfl
  | wait => exact (List.append_nil _).symm
  | stop other =>
      have hnode : ¬(other = node ∧ mail.stopped = false) := by
        intro hstops
        simp [Mail.pass, hstops] at h
      simp [Mail.arrivals, Mail.pass, Event.shipped?, hnode]
  | close other =>
      simp [Mail.arrivals, Mail.pass, Event.shipped?, stopped_of_pass h]

/-- The message that the node takes at an event, if it takes one. -/
def accepted (node : Nat) (mail : Mail κ V) (event : Event κ V) : List (Message κ V) :=
  if mail.closed then [] else (event.shipped? node).toList

/-- Nothing is queued or arrives that was not queued or taken. -/
theorem countP_pass_le (holds : Message κ V → Bool) (event : Event κ V) :
    (mail.arrivals node event).countP holds + (mail.pass node event).queue.countP holds ≤
      mail.queue.countP holds + (mail.accepted node event).countP holds := by
  cases event with
  | ship other m =>
      by_cases htaken : other = node ∧ mail.closed = false
      · rw [pass, if_pos htaken]
        cases mail.stopped <;>
          simp only [arrivals, queue, accepted, Event.shipped?, htaken, if_true, List.countP_append,
            Option.toList_some, List.countP_nil, Bool.false_eq_true, if_false] <;> omega
      · rw [pass, if_neg htaken, arrivals, List.countP_nil, Nat.zero_add]
        exact Nat.le_add_right ..
  | deliver other =>
      by_cases hnode : other = node
      · have hall := congrArg (List.countP holds) (List.take_append_drop 1 mail.waiting)
        rw [List.countP_append] at hall
        simp only [arrivals, pass, queue, hnode, if_true, List.countP_append]
        omega
      · simp only [arrivals, pass, hnode, if_false, List.countP_nil, Nat.zero_add]
        exact Nat.le_add_right ..
  | settle =>
      simp only [arrivals, pass, queue, List.countP_append, List.countP_nil]
      omega
  | wait => simp [arrivals, pass]
  | stop other | close other =>
      rw [arrivals, List.countP_nil, Nat.zero_add, pass]
      refine Nat.le_trans ?_ (Nat.le_add_right ..)
      split <;> simp [queue, List.countP_append]

/-! ## The inbox of a node -/

/-- The inbox that holds what is queued of the mail. -/
def inbox (mail : Mail κ V) : Inbox κ V where
  queue := mail.queue
  service := if mail.closed then .stopped else if mail.stopped then .stopping else .running

theorem Sound.inbox_of_running (h : mail.Sound) (hopen : mail.stopped = false) :
    mail.inbox = { queue := mail.waiting } := by
  simp [inbox, queue, h.doomed (.inl hopen), h.closed_of_running hopen, hopen]

/-- Whoever was told to stop delivers nothing. -/
theorem service_of_stopped (hstopped : mail.stopped = true) : mail.inbox.service ≠ .running := by
  unfold inbox
  rw [if_pos hstopped]
  split <;> exact nofun

/-- Whether the inbox takes another message. -/
theorem inbox_accepts (mail : Mail κ V) : mail.inbox.accepts = !mail.closed := by
  unfold inbox Inbox.accepts
  cases mail.closed <;> cases mail.stopped <;> rfl

theorem Sound.inbox_ship (h : mail.Sound) (m : Message κ V) :
    (mail.pass node (.ship node m)).inbox = mail.inbox.push m := by
  cases hclosed : mail.closed with
  | true => simp [Mail.pass, Inbox.push, inbox_accepts, hclosed]
  | false =>
      rw [Inbox.push, inbox_accepts, hclosed, Mail.pass, if_pos ⟨rfl, hclosed⟩]
      cases hstopped : mail.stopped with
      | true => simp [inbox, queue, hclosed, hstopped]
      | false => simp [inbox, queue, hclosed, hstopped, h.doomed (.inl hstopped)]

theorem Sound.inbox_stop (h : mail.Sound) :
    (mail.pass node (.stop node)).inbox = mail.inbox.stop := by
  cases hstopped : mail.stopped with
  | false =>
      simp [Mail.pass, Inbox.stop, inbox, queue, hstopped, h.doomed (.inl hstopped),
        h.closed_of_running hstopped]
  | true =>
      have hservice := service_of_stopped hstopped
      rw [Mail.pass, if_neg (by simp [hstopped]), Inbox.stop]
      split
      next hrunning => exact absurd hrunning hservice
      next => rfl

theorem Sound.inbox_close (h : mail.Sound) :
    (mail.pass node (.close node)).inbox = mail.inbox.close := by
  cases hstopped : mail.stopped with
  | false =>
      rw [Mail.pass, if_neg (by simp [hstopped]), h.inbox_of_running hstopped]
      rfl
  | true =>
      have hservice := service_of_stopped hstopped
      rw [Mail.pass, if_pos ⟨rfl, hstopped⟩, Inbox.close]
      split
      next hrunning => exact absurd hrunning hservice
      next => simp [inbox, queue, h.waiting hstopped]

end Mail

/-! ## A course of events -/

section Account

variable {κ : Type u} {V : Type v}

/-- The mail of a node after events. -/
def mail (node : Nat) (events : List (Event κ V)) : Mail κ V :=
  events.foldl (Mail.pass node) {}

/-- The messages that were delivered to a node, in turn. -/
def delivered (node : Nat) (events : List (Event κ V)) : List (Message κ V) :=
  (mail node events).delivered

/-- The messages that were shipped to a node, in turn. -/
def shipped (node : Nat) (events : List (Event κ V)) : List (Message κ V) :=
  events.filterMap (·.shipped? node)

theorem shipped_append (node : Nat) (events more : List (Event κ V)) :
    shipped node (events ++ more) = shipped node events ++ shipped node more :=
  List.filterMap_append

theorem shipped_snoc (node : Nat) (events : List (Event κ V)) (event : Event κ V) :
    shipped node (events ++ [event]) = shipped node events ++ (event.shipped? node).toList := by
  rw [shipped_append]
  cases hshipped : event.shipped? node <;> simp [shipped, hshipped]

theorem mail_snoc (node : Nat) (events : List (Event κ V)) (event : Event κ V) :
    mail node (events ++ [event]) = (mail node events).pass node event :=
  List.foldl_concat ..

theorem delivered_snoc (node : Nat) (events : List (Event κ V)) (event : Event κ V) :
    delivered node (events ++ [event]) =
      delivered node events ++ (mail node events).arrivals node event := by
  rw [delivered, mail_snoc, Mail.delivered_pass]
  rfl

theorem sound_mail (node : Nat) (events : List (Event κ V)) : (mail node events).Sound := by
  induction events using List.reverseRecOn with
  | nil => exact ⟨fun _ => rfl, fun _ => rfl, id⟩
  | append_singleton events event ih =>
      rw [mail_snoc]
      exact ih.pass event

/-- An inbox that has not been stopped loses nothing. -/
theorem delivered_append_waiting {node : Nat} {events : List (Event κ V)}
    (h : (mail node events).stopped = false) :
    delivered node events ++ (mail node events).waiting = shipped node events := by
  induction events using List.reverseRecOn with
  | nil => rfl
  | append_singleton events event ih =>
      rw [mail_snoc] at h
      rw [delivered_snoc, mail_snoc, List.append_assoc,
        (sound_mail node events).arrivals_append_waiting event h, ← List.append_assoc,
        ih (Mail.stopped_of_pass h), shipped_snoc]

/-- What is delivered to a node comes first in what was shipped to it. -/
theorem delivered_prefix_shipped (node : Nat) (events : List (Event κ V)) :
    delivered node events <+: shipped node events := by
  induction events using List.reverseRecOn with
  | nil => exact List.prefix_rfl
  | append_singleton events event ih =>
      have harrived : delivered node (events ++ [event]) <+: shipped node events := by
        rw [delivered_snoc]
        cases hstopped : (mail node events).stopped with
        | true =>
            rw [(sound_mail node events).arrivals hstopped, List.append_nil]
            exact ih
        | false =>
            rw [← delivered_append_waiting hstopped, List.prefix_append_right_inj]
            exact Mail.arrivals_prefix_waiting event
      rw [shipped_snoc]
      exact harrived.trans (List.prefix_append ..)

/-- What has been delivered stays delivered. -/
theorem delivered_prefix_append (node : Nat) (events more : List (Event κ V)) :
    delivered node events <+: delivered node (events ++ more) := by
  induction more using List.reverseRecOn with
  | nil => rw [List.append_nil]
  | append_singleton more event ih =>
      rw [← List.append_assoc, delivered_snoc]
      exact ih.trans (List.prefix_append ..)

theorem stopped_append {node : Nat} {events : List (Event κ V)}
    (h : (mail node events).stopped = true) (more : List (Event κ V)) :
    (mail node (events ++ more)).stopped = true := by
  induction more using List.reverseRecOn with
  | nil => rwa [List.append_nil]
  | append_singleton more event ih =>
      rw [← List.append_assoc, mail_snoc]
      exact Mail.stopped_pass event ih

/-- Nothing is delivered to a node whose inbox has been stopped. -/
theorem delivered_append_of_stopped {node : Nat} {events : List (Event κ V)}
    (h : (mail node events).stopped = true) (more : List (Event κ V)) :
    delivered node (events ++ more) = delivered node events := by
  induction more using List.reverseRecOn with
  | nil => rw [List.append_nil]
  | append_singleton more event ih =>
      rw [← List.append_assoc, delivered_snoc,
        (sound_mail node _).arrivals (stopped_append h more), List.append_nil, ih]

theorem delivered_stop (node : Nat) (before after : List (Event κ V)) :
    delivered node (before ++ .stop node :: after) = delivered node before := by
  have hstopped : (mail node (before ++ [.stop node])).stopped = true := by
    rw [mail_snoc]
    cases hearlier : (mail node before).stopped <;> simp [Mail.pass, hearlier]
  rw [List.append_cons before (.stop node) after, delivered_append_of_stopped hstopped,
    delivered_snoc]
  exact List.append_nil _

/-- If no awaited message waits at the end of `past`, whatever is delivered later and awaited was shipped
later: of the messages shipped by then, those delivered later are not awaited. -/
theorem countP_delivered {node : Nat} {past : List (Event κ V)}
    (hpast : ∀ m ∈ (mail node past).waiting, m.awaited = false) (recent : List (Event κ V)) :
    (delivered node (past ++ recent)).countP (·.awaited) = (delivered node past).countP (·.awaited) +
      ((delivered node (past ++ recent)).drop (shipped node past).length).countP (·.awaited) := by
  obtain ⟨later, hlater⟩ := delivered_prefix_append node past recent
  have hfirst : ((delivered node (past ++ recent)).take (shipped node past).length).countP
      (·.awaited) = (delivered node past).countP (·.awaited) := by
    cases hstopped : (mail node past).stopped with
    | true =>
        rw [delivered_append_of_stopped hstopped,
          List.take_of_length_le (delivered_prefix_shipped node past).length_le]
    | false =>
        have hshipped := delivered_append_waiting hstopped
        have htake : (delivered node (past ++ recent)).take (shipped node past).length =
            delivered node past ++ later.take (mail node past).waiting.length := by
          rw [← hlater, ← hshipped, List.length_append, List.take_length_add_append]
        -- The part that was not delivered at the end of `past` was waiting then.
        have hwaited : later.take (mail node past).waiting.length <+: (mail node past).waiting := by
          rw [← List.prefix_append_right_inj (delivered node past), ← htake, hshipped]
          refine List.prefix_of_prefix_length_le ((List.take_prefix ..).trans
            (delivered_prefix_shipped node (past ++ recent))) ?_ (List.length_take_le ..)
          rw [shipped_append]
          exact List.prefix_append ..
        rw [htake, List.countP_append, Nat.add_eq_left, List.countP_eq_zero]
        exact fun m hm => by simp [hpast m (hwaited.subset hm)]
  rw [← hfirst, ← List.countP_append, List.take_append_drop]

end Account

end Exchange

end Ephemera
