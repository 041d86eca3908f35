import Mathlib.Algebra.BigOperators.Group.Finset.Piecewise
import Mathlib.Algebra.Order.BigOperators.Group.Finset
import Ephemera.Proofs.Mail
import Ephemera.Proofs.View

/-! # Acknowledgements

A sender ships messages and waits now and then for the acknowledgements, inboxes are served one message
at a time or all at once, and are stopped at any time. A wait only looks on: it returns at a point of
the events at which no awaited message is queued, and what is not awaited may be queued beyond it.

Against the mail of the nodes, which is told from the events alone, the stores of each node are those that
the delivered messages make, and the number that a wait returns is how many of them were shipped since the
last wait and awaited. As the two are read at the same point of the events, whatever has been acknowledged
has been applied.
-/

namespace Ephemera

open Std

universe u v

namespace Exchange

/-! ## Nodes and their mail -/

variable {κ : Type u} {V : Type v} [Ord κ] [TransOrd κ] [Hashable κ]

/-- The node that messages make of a node when they are applied to its stores, in turn. -/
def applyAll (n : Node κ V) (messages : List (Message κ V)) : Node κ V :=
  messages.foldl (fun n m => (n.apply m.target m.update).1) n

/-- What an event makes of one node, and how many acknowledgements the node sends. -/
def react (node : Nat) (n : Node κ V) : Event κ V → Node κ V × Nat
  | .ship other m => (if other = node then n.push m else n, 0)
  | .deliver other => if other = node then n.deliver.map id Bool.toNat else (n, 0)
  | .settle => n.settle
  | .wait => (n, 0)
  | .stop other => (if other = node then { n with inbox := n.inbox.stop } else n, 0)
  | .close other => (if other = node then { n with inbox := n.inbox.close } else n, 0)

theorem applyAll_setInbox (n : Node κ V) (inbox : Inbox κ V) (messages : List (Message κ V)) :
    applyAll { n with inbox } messages = { applyAll n messages with inbox } := by
  induction messages generalizing n with
  | nil => rfl
  | cons m rest ih =>
      have hhead : (({ n with inbox } : Node κ V).apply m.target m.update).1 =
          { (n.apply m.target m.update).1 with inbox } := by
        obtain ⟨target, update, awaited⟩ := m
        cases update <;> cases target <;> rfl
      simp only [applyAll, List.foldl_cons, hhead]
      exact ih _

theorem applyAll_append (n : Node κ V) (messages more : List (Message κ V)) :
    applyAll n (messages ++ more) = applyAll (applyAll n messages) more :=
  List.foldl_append ..

namespace Mail

/-- The node that the mail makes of one with an empty inbox. -/
def received (mail : Mail κ V) (n : Node κ V) : Node κ V :=
  { applyAll n mail.delivered with inbox := mail.inbox }

variable {node : Nat} {mail : Mail κ V} {n : Node κ V}

/-- What messages make of a node that has received its mail. -/
theorem applyAll_received (inbox : Inbox κ V) (messages : List (Message κ V)) :
    applyAll { mail.received n with inbox } messages =
      { applyAll n (mail.delivered ++ messages) with inbox } := by
  rw [applyAll_append, ← applyAll_setInbox]
  rfl

/-- An event that delivers nothing to the node changes at most its inbox. -/
theorem received_pass {event : Event κ V} (h : mail.arrivals node event = []) :
    (mail.pass node event).received n =
      { mail.received n with inbox := (mail.pass node event).inbox } := by
  rw [received, delivered_pass, h, List.append_nil]
  rfl

/-- Everything that waits is delivered, unless the inbox has been told to stop. -/
theorem Sound.settle_received (h : mail.Sound) (node : Nat) (n : Node κ V) :
    (mail.received n).settle =
      ((mail.pass node .settle).received n, mail.waiting.countP (·.awaited)) := by
  have hinbox : (mail.received n).inbox = mail.inbox := rfl
  cases hstopped : mail.stopped with
  | false =>
      have hsettle : (mail.received n).settle =
          (applyAll { mail.received n with inbox := {} } mail.waiting,
            mail.waiting.countP (·.awaited)) := by
        simp only [Node.settle, hinbox, h.inbox_of_running hstopped]
        rfl
      rw [hsettle, applyAll_received]
      simp [received, Mail.pass, inbox, queue, hstopped]
  | true =>
      have hwaiting := h.waiting hstopped
      unfold Node.settle
      split
      next hrunning => exact absurd hrunning (service_of_stopped hstopped)
      next => simp [received, Mail.pass, inbox, queue, hstopped, hwaiting]

/-- The oldest message is delivered, unless none waits or the inbox has been told to stop. -/
theorem Sound.deliver_received (h : mail.Sound) (node : Nat) (n : Node κ V) :
    (mail.received n).deliver.map id Bool.toNat =
      ((mail.pass node (.deliver node)).received n,
        (mail.arrivals node (.deliver node)).countP (·.awaited)) := by
  have hinbox : (mail.received n).inbox = mail.inbox := rfl
  cases hwaiting : mail.waiting with
  | nil =>
      have hnothing : (mail.received n).deliver = (mail.received n, false) := by
        cases hstopped : mail.stopped with
        | false => simp [Node.deliver, hinbox, h.inbox_of_running hstopped, hwaiting]
        | true => simp [Node.deliver, hinbox, service_of_stopped hstopped]
      rw [hnothing]
      simp [Mail.arrivals, Mail.pass, received, inbox, queue, hwaiting]
  | cons m rest =>
      have hopen : mail.stopped = false := by
        by_contra hstopped
        rw [h.waiting (Bool.eq_true_of_not_eq_false hstopped)] at hwaiting
        cases hwaiting
      have hdelivered : (mail.received n).deliver =
          (applyAll { mail.received n with inbox := { queue := rest } } [m], m.awaited) := by
        simp only [Node.deliver, hinbox, h.inbox_of_running hopen, hwaiting]
        rfl
      rw [hdelivered, applyAll_received]
      simp [Mail.arrivals, Mail.pass, received, inbox, queue, hwaiting, hopen,
        h.closed_of_running hopen, h.doomed (.inl hopen), List.countP_singleton, Bool.toNat,
        cond_eq_ite]

/-- An event at a node makes of it what it makes of its mail, and the node acknowledges what arrives
and is awaited. -/
theorem Sound.react_received (h : mail.Sound) (node : Nat) (n : Node κ V) (event : Event κ V) :
    react node (mail.received n) event =
      ((mail.pass node event).received n, (mail.arrivals node event).countP (·.awaited)) := by
  cases event with
  | ship other m =>
      by_cases hnode : other = node
      · subst hnode
        rw [received_pass rfl, h.inbox_ship, react, if_pos rfl]
        rfl
      · simp [react, Mail.pass, Mail.arrivals, hnode]
  | deliver other =>
      by_cases hnode : other = node
      · subst hnode
        rw [react, if_pos rfl, h.deliver_received]
      · simp [react, Mail.pass, Mail.arrivals, hnode]
  | settle => exact h.settle_received node n
  | wait => rfl
  | stop other =>
      by_cases hnode : other = node
      · subst hnode
        rw [received_pass rfl, h.inbox_stop, react, if_pos rfl]
        rfl
      · simp [react, Mail.pass, Mail.arrivals, hnode]
  | close other =>
      by_cases hnode : other = node
      · subst hnode
        rw [received_pass rfl, h.inbox_close, react, if_pos rfl]
        rfl
      · simp [react, Mail.pass, Mail.arrivals, hnode]

end Mail

/-! ## One event of an exchange -/

/-- Let an event happen. Only a wait may have to go on, and then does not return yet. -/
def step (e : Exchange κ V) : Event κ V → Option (Exchange κ V)
  | .ship node m => some (e.ship node m)
  | .deliver node => some (e.deliver node)
  | .settle => some e.settle
  | .wait => e.wait?.map (·.1)
  | .stop node => some (e.stop node)
  | .close node => some (e.close node)

/-- Let several events happen, in turn. -/
def run (events : List (Event κ V)) (e : Exchange κ V) : Option (Exchange κ V) :=
  events.foldlM step e

theorem run_snoc (events : List (Event κ V)) (event : Event κ V) (e : Exchange κ V) :
    run (events ++ [event]) e = (run events e).bind (·.step event) := by
  simp [run, List.foldlM_append]

/-- How many acknowledgements all nodes together send at an event. -/
def sent (e : Exchange κ V) (event : Event κ V) : Nat :=
  ∑ node ∈ Finset.range e.net.length, ((e.net[node]?.map fun n => (react node n event).2).getD 0)

variable {e f : Exchange κ V} {event : Event κ V}

omit [TransOrd κ] [Hashable κ] in
theorem wait?_eq_some_iff {count : Nat} :
    e.wait? = some (f, count) ↔
      e.net.awaits = false ∧ f = { net := e.net } ∧ count = e.acknowledged := by
  unfold wait?
  cases e.net.awaits with
  | false => simp [eq_comm]
  | true => simp

theorem step_wait (h : e.step .wait = some f) : e.net.awaits = false ∧ f = { net := e.net } := by
  obtain ⟨⟨g, count⟩, hwait, rfl⟩ := Option.map_eq_some_iff.1 h
  obtain ⟨hnone, hleft, -⟩ := wait?_eq_some_iff.1 hwait
  exact ⟨hnone, hleft⟩

/-- Each node goes its own way. -/
theorem getElem?_step (h : e.step event = some f) (node : Nat) :
    f.net[node]? = e.net[node]?.map fun n => (react node n event).1 := by
  cases event with
  | ship other m =>
      cases h
      exact e.net.getElem?_ship other node m
  | deliver other =>
      cases h
      refine (List.getElem?_modify ..).trans (congrArg (e.net[node]?.map ·) ?_)
      funext n
      rw [react]
      split <;> rfl
  | settle =>
      cases h
      exact List.getElem?_map
  | wait =>
      rw [(step_wait h).2]
      exact Option.map_id'.symm
  | stop other | close other =>
      cases h
      exact List.getElem?_modify ..

theorem sent_settle (e : Exchange κ V) : e.sent .settle = e.net.acknowledgements := by
  have hsum : ∀ net : Network κ V, net.foldr (fun n sent => n.settle.2 + sent) 0 =
      ∑ node ∈ Finset.range net.length, ((net[node]?.map (·.settle.2)).getD 0) := by
    intro net
    induction net with
    | nil => rfl
    | cons n rest ih =>
        rw [List.foldr_cons, List.length_cons, Finset.sum_range_succ', ih, Nat.add_comm]
        rfl
  exact (hsum e.net).symm

/-- An event that concerns one node lets no other send anything. -/
theorem sent_eq (node : Nat) (f : Node κ V → Nat)
    (h : ∀ other n, (react other n event).2 = if node = other then f n else 0) :
    e.sent event = (e.net[node]?.map f).getD 0 := by
  have hterm : ∀ other, ((e.net[other]?.map fun n => (react other n event).2).getD 0) =
      if node = other then (e.net[node]?.map f).getD 0 else 0 := by
    intro other
    simp only [h]
    split
    next hnode => rw [hnode]
    next => cases e.net[other]? <;> rfl
  rw [sent, Finset.sum_congr rfl fun other _ => hterm other, Finset.sum_ite_eq]
  split
  next => rfl
  next hunknown =>
    rw [List.getElem?_eq_none (Nat.not_lt.1 fun hnode => hunknown (Finset.mem_range.2 hnode))]
    rfl

/-- Acknowledgements are counted as they are sent, up to a wait. -/
theorem acknowledged_step (h : e.step event = some f) (hevent : event ≠ .wait) :
    f.acknowledged = e.acknowledged + e.sent event := by
  cases event with
  | ship node m =>
      cases h
      rw [sent_eq node (fun _ => 0) fun _ _ => (ite_self _).symm]
      cases e.net[node]? <;> rfl
  | stop other | close other =>
      cases h
      rw [sent_eq other (fun _ => 0) fun _ _ => (ite_self _).symm]
      cases e.net[other]? <;> rfl
  | deliver node =>
      cases h
      rw [sent_eq node fun n => n.deliver.2.toNat]
      · rfl
      · intro other n
        rw [react]
        split <;> rfl
  | settle =>
      cases h
      rw [sent_settle]
      rfl
  | wait => exact absurd rfl hevent

omit [TransOrd κ] [Hashable κ] in
/-- A message that the node does not take changes nothing, not even how many are pending. -/
theorem ship_of_not_accepts {node : Nat} (h : e.net.accepts node = false) (m : Message κ V) :
    e.ship node m = e := by
  have hnet : e.net.ship node m = e.net := by
    refine List.ext_getElem? fun other => ?_
    rw [Network.getElem?_ship]
    cases hn : e.net[other]? with
    | none => rfl
    | some n =>
        rw [Option.map_some]
        split
        next hnode =>
          subst hnode
          rw [Network.accepts, hn, Option.any_some] at h
          rw [Node.push, Inbox.push, h]
          rfl
        next => rfl
  rw [ship, hnet, h, Bool.and_false]
  rfl

/-! ## The whole course of an exchange -/

section Course

variable {net : Network κ V} {events : List (Event κ V)}

/-- However an exchange goes, every node has received its mail. -/
theorem net_run (hfresh : ∀ n ∈ net, n.inbox = {}) (hrun : run events { net } = some e) :
    e.net = net.mapIdx fun node n => (mail node events).received n := by
  induction events using List.reverseRecOn generalizing e with
  | nil =>
      cases hrun
      refine List.ext_getElem? fun node => ?_
      rw [List.getElem?_mapIdx]
      cases hn : net[node]? with
      | none => rfl
      | some n =>
          have hempty : n = { n with inbox := {} } := by
            rw [← hfresh n (List.mem_of_getElem? hn)]
          exact congrArg some hempty
  | append_singleton events event ih =>
      rw [run_snoc] at hrun
      obtain ⟨d, hd, hstep⟩ := Option.bind_eq_some_iff.1 hrun
      refine List.ext_getElem? fun node => ?_
      rw [getElem?_step hstep, ih hd, List.getElem?_mapIdx, List.getElem?_mapIdx, mail_snoc,
        Option.map_map]
      refine congrArg (net[node]?.map ·) (funext fun n => ?_)
      rw [Function.comp_apply, (sound_mail node events).react_received]

theorem length_run (hfresh : ∀ n ∈ net, n.inbox = {}) (hrun : run events { net } = some e) :
    e.net.length = net.length := by
  rw [net_run hfresh hrun, List.length_mapIdx]

/-- The nodes together acknowledge what arrives and is awaited. -/
theorem sent_run (hfresh : ∀ n ∈ net, n.inbox = {}) (hrun : run events { net } = some e)
    (event : Event κ V) :
    e.sent event = ∑ node ∈ Finset.range net.length,
      ((mail node events).arrivals node event).countP (·.awaited) := by
  rw [sent, length_run hfresh hrun, net_run hfresh hrun]
  refine Finset.sum_congr rfl fun node hnode => ?_
  rw [List.getElem?_mapIdx, List.getElem?_eq_getElem (Finset.mem_range.1 hnode), Option.map_some,
    Option.map_some, (sound_mail node events).react_received]
  rfl

/-- No wait has to go on if what is queued at the nodes is not awaited. -/
theorem awaits_run (hfresh : ∀ n ∈ net, n.inbox = {}) (hrun : run events { net } = some e) :
    e.net.awaits = false ↔
      ∀ node < net.length, ∀ m ∈ (mail node events).queue, m.awaited = false := by
  simp only [Network.awaits, List.any_eq_false, net_run hfresh hrun, List.mem_mapIdx,
    Bool.not_eq_true]
  constructor
  · exact fun hnone node hnode => hnone _ ⟨node, hnode, rfl⟩
  · rintro hnone n ⟨node, hnode, rfl⟩
    exact hnone node hnode

/-- The inbox of a node takes no message if there is no such node, or if it was told to stop and has
noticed. -/
theorem accepts_run_iff (hfresh : ∀ n ∈ net, n.inbox = {}) (hrun : run events { net } = some e)
    (node : Nat) :
    e.net.accepts node = false ↔ net.length ≤ node ∨ (mail node events).closed = true := by
  rw [Network.accepts, net_run hfresh hrun, List.getElem?_mapIdx]
  by_cases hnode : node < net.length
  · rw [List.getElem?_eq_getElem hnode, Option.map_some, Option.any_some, Mail.received,
      Mail.inbox_accepts]
    simp [Nat.not_le.2 hnode]
  · rw [List.getElem?_eq_none (Nat.not_lt.1 hnode)]
    simp [Nat.not_lt.1 hnode]

/-- As many messages become pending as are awaited of those that the nodes take. -/
theorem pending_step (hfresh : ∀ n ∈ net, n.inbox = {}) (hrun : run events { net } = some e)
    (hstep : e.step event = some f) (hevent : event ≠ .wait) :
    f.pending = e.pending + ∑ node ∈ Finset.range net.length,
      ((mail node events).accepted node event).countP (·.awaited) := by
  cases event with
  | wait => exact absurd rfl hevent
  | deliver | settle | stop | close =>
      cases hstep
      rw [Finset.sum_eq_zero fun node _ => congrArg (List.countP Message.awaited) (ite_self _)]
      rfl
  | ship target m =>
      cases hstep
      have hterm : ∀ node, ((mail node events).accepted node (.ship target m)).countP (·.awaited) =
          if target = node then
            if (mail target events).closed then 0 else m.awaited.toNat
          else 0 := by
        intro node
        rw [Mail.accepted, Event.shipped?]
        by_cases hnode : target = node
        · subst hnode
          cases (mail target events).closed <;> cases hawaited : m.awaited <;> simp [hawaited]
        · simp [hnode]
      rw [Finset.sum_congr rfl fun node _ => hterm node, Finset.sum_ite_eq, ship]
      have haccepts := accepts_run_iff hfresh hrun target
      cases hqueued : e.net.accepts target with
      | false =>
          rcases haccepts.1 hqueued with hunknown | hclosed
          · simp [Nat.not_lt.2 hunknown]
          · simp [hclosed]
      | true =>
          have htaken := (not_congr haccepts).1 (by simp [hqueued])
          rw [not_or, Nat.not_le, Bool.not_eq_true] at htaken
          cases m.awaited <;> simp [htaken]

/-- When a wait has returned, no awaited message waits to be delivered, as at the start. -/
theorem not_awaited_of_wait (hfresh : ∀ n ∈ net, n.inbox = {}) {past : List (Event κ V)}
    (hpast : past = [] ∨ ∃ earlier, past = earlier ++ [.wait]) (hrun : run past { net } = some e) :
    e.acknowledged = 0 ∧
      ∀ node < net.length, ∀ m ∈ (mail node past).waiting, m.awaited = false := by
  rcases hpast with rfl | ⟨earlier, rfl⟩
  · cases hrun
    exact ⟨rfl, fun node _ m hm => by cases hm⟩
  · rw [run_snoc] at hrun
    obtain ⟨d, hd, hstep⟩ := Option.bind_eq_some_iff.1 hrun
    obtain ⟨hnone, rfl⟩ := step_wait hstep
    refine ⟨rfl, fun node hnode m hm => ?_⟩
    rw [mail_snoc] at hm
    exact (awaits_run hfresh hd).1 hnone node hnode m (List.mem_append_left _ hm)

/-- How many messages were awaited, shipped after `past` and delivered in the end, all nodes taken
together. -/
def answered (nodes : Nat) (past events : List (Event κ V)) : Nat :=
  ∑ node ∈ Finset.range nodes,
    ((delivered node events).drop (shipped node past).length).countP (·.awaited)

omit [Ord κ] [TransOrd κ] [Hashable κ] in
theorem answered_self (nodes : Nat) (past : List (Event κ V)) : answered nodes past past = 0 := by
  refine Finset.sum_eq_zero fun node _ => ?_
  rw [List.drop_eq_nil_of_le (delivered_prefix_shipped node past).length_le, List.countP_nil]

omit [Ord κ] [TransOrd κ] [Hashable κ] in
theorem answered_snoc {nodes : Nat} {past : List (Event κ V)}
    (hpast : ∀ node < nodes, ∀ m ∈ (mail node past).waiting, m.awaited = false)
    (recent : List (Event κ V)) (event : Event κ V) :
    answered nodes past (past ++ recent ++ [event]) =
      answered nodes past (past ++ recent) + ∑ node ∈ Finset.range nodes,
        ((mail node (past ++ recent)).arrivals node event).countP (·.awaited) := by
  rw [answered, answered, ← Finset.sum_add_distrib]
  refine Finset.sum_congr rfl fun node hnode => ?_
  have hwaiting := hpast node (Finset.mem_range.1 hnode)
  have hbefore := countP_delivered hwaiting recent
  have hafter := countP_delivered hwaiting (recent ++ [event])
  have harrived := congrArg (List.countP (·.awaited)) (delivered_snoc node (past ++ recent) event)
  rw [List.countP_append] at harrived
  rw [← List.append_assoc] at hafter
  omega

/-- Since the last wait, as many acknowledgements have been counted as messages shipped since then have
been delivered and are awaited. -/
theorem acknowledged_run (hfresh : ∀ n ∈ net, n.inbox = {}) {past recent : List (Event κ V)}
    (hpast : past = [] ∨ ∃ earlier, past = earlier ++ [.wait]) (hrecent : .wait ∉ recent)
    (hrun : run (past ++ recent) { net } = some e) :
    e.acknowledged = answered net.length past (past ++ recent) := by
  induction recent using List.reverseRecOn generalizing e with
  | nil =>
      rw [List.append_nil] at hrun ⊢
      rw [(not_awaited_of_wait hfresh hpast hrun).1, answered_self]
  | append_singleton recent event ih =>
      rw [List.mem_append, List.mem_singleton, not_or] at hrecent
      rw [← List.append_assoc, run_snoc] at hrun
      obtain ⟨d, hd, hstep⟩ := Option.bind_eq_some_iff.1 hrun
      obtain ⟨b, hb⟩ : ∃ b, run past { net } = some b := by
        rw [run, List.foldlM_append] at hd
        obtain ⟨b, hb, -⟩ := Option.bind_eq_some_iff.1 hd
        exact ⟨b, hb⟩
      rw [← List.append_assoc, answered_snoc (not_awaited_of_wait hfresh hpast hb).2, ← ih hrecent.1 hd,
        ← sent_run hfresh hd]
      exact acknowledged_step hstep (Ne.symm hrecent.2)

/-- No more acknowledgements arrive than are pending: what is still queued is pending as well. -/
theorem acknowledged_add_queued_le (hfresh : ∀ n ∈ net, n.inbox = {})
    (hrun : run events { net } = some e) :
    e.acknowledged + ∑ node ∈ Finset.range net.length,
        (mail node events).queue.countP (·.awaited) ≤ e.pending := by
  induction events using List.reverseRecOn generalizing e with
  | nil =>
      cases hrun
      simp [mail, Mail.queue]
  | append_singleton events event ih =>
      rw [run_snoc] at hrun
      obtain ⟨d, hd, hstep⟩ := Option.bind_eq_some_iff.1 hrun
      by_cases hevent : event = .wait
      · subst hevent
        obtain ⟨hnone, rfl⟩ := step_wait hstep
        rw [Finset.sum_eq_zero]
        · exact Nat.le_refl 0
        · intro node hnode
          rw [mail_snoc, List.countP_eq_zero]
          intro m hm
          simp [(awaits_run hfresh hd).1 hnone node (Finset.mem_range.1 hnode) m hm]
      · -- What arrives was queued before, and what is queued anew was taken, which makes it pending.
        have hmoved : ∑ node ∈ Finset.range net.length,
              ((mail node events).arrivals node event).countP (·.awaited) +
            ∑ node ∈ Finset.range net.length,
              (mail node (events ++ [event])).queue.countP (·.awaited) ≤
            ∑ node ∈ Finset.range net.length, (mail node events).queue.countP (·.awaited) +
            ∑ node ∈ Finset.range net.length,
              ((mail node events).accepted node event).countP (·.awaited) := by
          rw [← Finset.sum_add_distrib, ← Finset.sum_add_distrib]
          refine Finset.sum_le_sum fun node _ => ?_
          rw [mail_snoc]
          exact Mail.countP_pass_le _ event
        have hbefore := ih hd
        rw [acknowledged_step hstep hevent, sent_run hfresh hd, pending_step hfresh hd hstep hevent]
        omega

/-- Take any nodes whose inboxes are served and empty, and let anything happen, with the last wait that
returned, if there was one, at the end of `past`.

The stores of each node are what the messages delivered to it make of those it started with. These come
first among those shipped to it, in order, and unless its inbox was told to stop the rest still waits. As
many acknowledgements have been counted as messages that were shipped since the last wait have been
delivered and are awaited, which are no more than are pending. A wait returns just this number, and it
does so exactly if no awaited message is queued any more: each was delivered, or lost. It can always
return once everything that can be delivered has been.

A message to an unknown node or a closed inbox changes nothing at all, and an inbox that has been told to
stop delivers nothing more. -/
theorem acknowledged_as_delivered (hfresh : ∀ n ∈ net, n.inbox = {}) {past recent : List (Event κ V)}
    (hpast : past = [] ∨ ∃ earlier, past = earlier ++ [.wait]) (hrecent : .wait ∉ recent)
    {e : Exchange κ V} (hrun : run (past ++ recent) { net } = some e) :
    let events := past ++ recent
    (∀ (node : Nat) (n₀ : Node κ V), net[node]? = some n₀ → ∃ n, e.net[node]? = some n ∧
      ∀ target, n.store target = (applyAll n₀ (delivered node events)).store target) ∧
    (∀ node, delivered node events <+: shipped node events ∧
      ((mail node events).stopped = false →
        delivered node events ++ (mail node events).waiting = shipped node events)) ∧
    e.acknowledged = answered net.length past events ∧
    e.acknowledged ≤ e.pending ∧
    (∀ f count, e.wait? = some (f, count) ↔
      (∀ node < net.length, ∀ m ∈ (mail node events).queue, m.awaited = false) ∧
        f = { net := e.net } ∧ count = answered net.length past events) ∧
    (e.settle.wait? = some e.wait ∧ e.wait.2 = answered net.length past (events ++ [.settle]) ∧
      e.wait.2 ≤ e.pending) ∧
    (∀ node, (e.net.accepts node = false ↔ net.length ≤ node ∨ (mail node events).closed = true) ∧
      (e.net.accepts node = false → ∀ m, e.ship node m = e)) ∧
    ∀ node before after, events = before ++ .stop node :: after →
      delivered node events = delivered node before := by
  intro events
  have hacknowledged := acknowledged_run hfresh hpast hrecent hrun
  have hpending := Nat.le_trans (Nat.le_add_right ..) (acknowledged_add_queued_le hfresh hrun)
  -- What a wait comes to once everything has been delivered is what holds of the run with a settling.
  have hsettled : run (past ++ (recent ++ [.settle])) { net } = some e.settle := by
    rw [← List.append_assoc, run_snoc, hrun]
    rfl
  have hlater : .wait ∉ recent ++ [.settle] := by simpa using hrecent
  have hcount := acknowledged_run hfresh hpast hlater hsettled
  have hbound := Nat.le_trans (Nat.le_add_right ..) (acknowledged_add_queued_le hfresh hsettled)
  refine ⟨fun node n₀ hn₀ => ?_,
    fun node => ⟨delivered_prefix_shipped node events, delivered_append_waiting⟩,
    hacknowledged, hpending, fun f count => ?_, ⟨?_, ?_, ?_⟩,
    fun node => ⟨accepts_run_iff hfresh hrun node, ship_of_not_accepts⟩, ?_⟩
  · refine ⟨(mail node events).received n₀, ?_, fun target => ?_⟩
    · rw [net_run hfresh hrun, List.getElem?_mapIdx, hn₀]
      rfl
    · cases target <;> rfl
  · rw [wait?_eq_some_iff, awaits_run hfresh hrun, hacknowledged]
  · rw [wait?_eq_some_iff, awaits_run hfresh hsettled, ← List.append_assoc]
    refine ⟨fun node _ m hm => ?_, rfl, rfl⟩
    rw [mail_snoc] at hm
    cases hm
  · rw [← List.append_assoc] at hcount
    exact hcount
  · exact hbound
  · rintro node before after hsplit
    rw [hsplit, delivered_stop]

/-- Store the value of the one key under that version. -/
def hold (version : UInt64) (awaited : Bool) : Message Nat (List Nat) where
  target := .owned
  update := .put 0 { value := [version.toNat], version, ttl := .eternal }
  awaited

/-- A wait returns while a message that is not awaited is still queued at node 0. Node 1 is told to stop
before anything more is delivered to it, and notices only later; there is no node 5. -/
def partlyLost : List (Event Nat (List Nat)) :=
  [.ship 1 (hold 1 true), .ship 0 (hold 1 false), .deliver 1, .wait,
    .ship 0 (hold 2 true), .ship 1 (hold 2 true), .ship 5 (hold 2 true), .stop 1, .ship 1 (hold 3 true),
    .deliver 0, .deliver 0, .close 1, .ship 1 (hold 4 true), .ship 0 (hold 4 false)]

theorem acknowledged_as_delivered_partlyLost :
    ∃ e : Exchange Nat (List Nat),
      run partlyLost { net := .empty 2 true } = some e ∧
      e.wait? = some ({ net := e.net }, 1) ∧ e.pending = 3 ∧
      e.net[0]?.map (·.inbox.queue) = some [hold 4 false] ∧
      (∃ n, e.net[1]? = some n ∧ n.owned.get? 0 =
        some { value := [1], version := 1, ttl := .eternal }) ∧
      e.ship 1 (hold 6 true) = e ∧ e.ship 5 (hold 6 true) = e := by
  have hfresh : ∀ n ∈ (Network.empty 2 true : Network Nat (List Nat)), n.inbox = {} := by decide
  obtain ⟨e, hrun, hpending, hqueued⟩ : ∃ e, run partlyLost { net := .empty 2 true } = some e ∧
      e.pending = 3 ∧ e.net[0]?.map (·.inbox.queue) = some [hold 4 false] :=
    ⟨_, rfl, by decide +kernel, by decide +kernel⟩
  obtain ⟨hstores, -, -, -, hwait, -, hlost, -⟩ :=
    acknowledged_as_delivered hfresh (.inr ⟨partlyLost.take 3, rfl⟩)
      (by decide : .wait ∉ partlyLost.drop 4) hrun
  obtain ⟨n, hn, hnode⟩ := hstores 1 (.empty true) rfl
  refine ⟨e, hrun, (hwait _ _).2 ⟨by decide +kernel, rfl, by decide +kernel⟩, hpending, hqueued,
    ⟨n, hn, ?_⟩, ?_, ?_⟩
  · have howned : n.owned = _ := hnode .owned
    rw [howned]
    decide +kernel
  · exact (hlost 1).2 ((hlost 1).1.2 (.inr (by decide +kernel))) _
  · exact (hlost 5).2 ((hlost 5).1.2 (.inl (by decide))) _

end Course

end Exchange

end Ephemera
