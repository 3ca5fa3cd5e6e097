import OSwitch.TcpServerLifetime

/-!
# What the observers are told

All notifications of the server are sent under `_subscribersMtx`: they are those
of an atomic broadcast, in one order for all observers. What one client's thread
publishes is what it has received, in that order; a disconnection comes last, and
no client is deleted before the observers have been told of it.
-/

namespace OSwitch.TcpServer
open Wire Trace Threads

variable {U : Type*} {S : Setting U} {x y : Shared U}

/-! ### An atomic broadcast -/

/- One call of a handler. -/
structure Notification where
  observer : ℕ
  clientIP : Bytes
  event : ClientEvent
  msg : Bytes
  deriving DecidableEq, Repr

/- The observers, numbered from `k` on, that an event of this client is told to. -/
def recipients (clientIP : Bytes) (e : ClientEvent) : ℕ → List Observer → List ℕ
  | _, [] => []
  | k, o :: os =>
    match clientEventHandler clientIP e o with
    | some _ => k :: recipients clientIP e (k + 1) os
    | none => recipients clientIP e (k + 1) os

def notify (clientIP : Bytes) (e : ClientEvent) (msg : Bytes) (ks : List ℕ) :
    List Notification :=
  ks.map fun k => ⟨k, clientIP, e, msg⟩

def notificationOf : Event → Option Notification
  | .notified k clientIP e msg => some ⟨k, clientIP, e, msg⟩
  | _ => none

def notifications (tr : List (Tid U × Event)) : List Notification :=
  tr.filterMap fun e => notificationOf e.2

/- The observers subscribed so far, and what they have been told. -/
structure Broadcast where
  observers : List Observer
  told : List Notification
  deriving DecidableEq, Repr

/- An event is told at once, to the observers that there are. -/
def Broadcast.add (b : Broadcast) : Event → Broadcast
  | .returned (.subscribe o) _ => { b with observers := b.observers ++ [o] }
  | .published clientIP e msg =>
    { b with told := b.told ++ notify clientIP e msg (recipients clientIP e 0 b.observers) }
  | _ => b

def broadcast (tr : List (Tid U × Event)) : Broadcast :=
  tr.foldl (fun b e => b.add e.2) ⟨[], []⟩

theorem notifications_snoc (tr : List (Tid U × Event)) (t : Tid U) (e : Event) :
    notifications (tr ++ [(t, e)]) = notifications tr ++ (notificationOf e).toList := by
  rw [notifications, List.filterMap_append]
  cases h : notificationOf e <;> simp [notifications, h]

theorem broadcast_snoc (tr : List (Tid U × Event)) (t : Tid U) (e : Event) :
    broadcast (tr ++ [(t, e)]) = (broadcast tr).add e := by
  unfold broadcast
  rw [List.foldl_append]
  rfl

/-! ### The loop over the observers -/

/- What the thread that holds `_subscribersMtx` has still to tell. -/
def ReceiverPc.due (clientIP : Bytes) (os : List Observer) : ReceiverPc → List Notification
  | .dispatch e msg k => notify clientIP e msg (recipients clientIP e k (os.drop k))
  | .handler e msg k _ => notify clientIP e msg (recipients clientIP e (k + 1) (os.drop (k + 1)))
  | _ => []

def due (s : State U) : List Notification :=
  match s.shared.subscribersMtx with
  | some (.receiver c) =>
    ReceiverPc.due (s.shared.client c).ip s.shared.subscribers (s.pc (.receiver c))
  | _ => []

theorem drop_of_getElem? {os : List Observer} {k : ℕ} {o : Observer} (h : os[k]? = some o) :
    os.drop k = o :: os.drop (k + 1) := by
  obtain ⟨hk, rfl⟩ := List.getElem?_eq_some_iff.mp h
  exact List.drop_eq_getElem_cons hk

theorem recipients_skip {clientIP : Bytes} {e : ClientEvent} {os : List Observer} {k : ℕ}
    {o : Observer} (ho : os[k]? = some o) (hskip : clientEventHandler clientIP e o = none) :
    recipients clientIP e k (os.drop k) = recipients clientIP e (k + 1) (os.drop (k + 1)) := by
  rw [drop_of_getElem? ho, recipients, hskip]

theorem recipients_notify {clientIP : Bytes} {e : ClientEvent} {os : List Observer} {k : ℕ}
    {o : Observer} {calls : Handler} (ho : os[k]? = some o)
    (hcall : clientEventHandler clientIP e o = some calls) :
    recipients clientIP e k (os.drop k) =
      k :: recipients clientIP e (k + 1) (os.drop (k + 1)) := by
  rw [drop_of_getElem? ho, recipients, hcall]

theorem recipients_end {clientIP : Bytes} {e : ClientEvent} {os : List Observer} {k : ℕ}
    (h : os[k]? = none) : recipients clientIP e k (os.drop k) = [] := by
  rw [List.drop_eq_nil_of_le (List.getElem?_eq_none_iff.mp h), recipients]

/- What one step of a receive thread tells, and what it adds to be told. -/
theorem receiver_tells {c : ℕ} {l m : ReceiverPc} {e : Event} (he : ReceiverStep c x l e y m) :
    y.subscribers = x.subscribers ∧
      ∃ new, (∀ told, Broadcast.add ⟨x.subscribers, told⟩ e = ⟨x.subscribers, told ++ new⟩) ∧
        (notificationOf e).toList ++ ReceiverPc.due (x.client c).ip x.subscribers m =
          ReceiverPc.due (x.client c).ip x.subscribers l ++ new := by
  have hsilent : ∀ {e : Event}, (∀ b : Broadcast, b.add e = b) → y.subscribers = x.subscribers →
      (notificationOf e).toList ++ ReceiverPc.due (x.client c).ip x.subscribers m =
        ReceiverPc.due (x.client c).ip x.subscribers l →
      y.subscribers = x.subscribers ∧
        ∃ new, (∀ told, Broadcast.add ⟨x.subscribers, told⟩ e = ⟨x.subscribers, told ++ new⟩) ∧
          (notificationOf e).toList ++ ReceiverPc.due (x.client c).ip x.subscribers m =
            ReceiverPc.due (x.client c).ip x.subscribers l ++ new := by
    intro e hadd hsub hdue
    refine ⟨hsub, [], fun told => ?_, ?_⟩
    · rw [hadd, List.append_nil]
    · rw [hdue, List.append_nil]
  cases he with
  | @lock e msg _ =>
    exact ⟨rfl, notify (x.client c).ip e msg (recipients (x.client c).ip e 0 x.subscribers),
      fun told => rfl, rfl⟩
  | skip ho hskip =>
    refine hsilent (fun b => rfl) rfl ?_
    exact congrArg (notify _ _ _) (recipients_skip ho hskip).symm
  | notify ho hcall =>
    refine hsilent (fun b => rfl) rfl ?_
    exact congrArg (notify _ _ _) (recipients_notify ho hcall).symm
  | again hend | finish hend =>
    refine hsilent (fun b => rfl) rfl ?_
    exact congrArg (notify _ _ _) (recipients_end hend).symm
  | _ => exact hsilent (fun b => rfl) rfl rfl

theorem notificationOf_step {c : ℕ} {l m : ReceiverPc} {e : Event}
    (he : ReceiverStep c x l e y m) (hl : ReceiverPc.locked l = false) :
    notificationOf e = none := by
  cases he with
  | notify => cases hl
  | _ => rfl

/- The other threads tell nothing; they subscribe. -/
theorem others_tell {t : Tid U} {l m : Pc t} {e : Event} (ht : ∀ c, t ≠ .receiver c)
    (h : Holds S t l x) (he : step S t x l e y m) :
    y.subscribersMtx = x.subscribersMtx ∧ notificationOf e = none ∧
      ∀ told, Broadcast.add ⟨x.subscribers, told⟩ e = ⟨y.subscribers, told⟩ := by
  cases t with
  | receiver c => exact absurd rfl (ht c)
  | other => cases he <;> exact ⟨rfl, rfl, fun _ => rfl⟩
  | remover j => cases he.2 <;> exact ⟨rfl, rfl, fun _ => rfl⟩
  | user u =>
    have hknows := h.knows
    cases he with
    | @addRemover remove => cases remove <;> exact ⟨rfl, rfl, fun _ => rfl⟩
    | closeServer | closeServerFailed =>
      cases hl : x.sockfd <;> exact ⟨rfl, rfl, fun _ => rfl⟩
    | @unlock op r =>
      cases op with
      | subscribe o => cases hknows.1
      | _ => exact ⟨rfl, rfl, fun _ => rfl⟩
    | _ => exact ⟨rfl, rfl, fun _ => rfl⟩

theorem ReceiverHolds.lt {c : ℕ} {l : ReceiverPc} (h : ReceiverHolds c x l)
    (hl : ReceiverPc.locked l = true) : c < x.nextClient := by
  cases l with
  | dispatch | handler => exact h.1
  | _ => cases hl

theorem due_of_others {s : State U}
    (h : ∀ c, s.shared.subscribersMtx ≠ some (.receiver c)) : due s = [] := by
  unfold due
  split
  · next c hc => exact absurd hc (h c)
  · rfl

theorem due_of_holder {s : State U} {c : ℕ}
    (h : s.shared.subscribersMtx = some (.receiver c)) :
    due s = ReceiverPc.due (s.shared.client c).ip s.shared.subscribers (s.pc (.receiver c)) := by
  unfold due
  rw [h]

theorem due_of_unlocked {clientIP : Bytes} {os : List Observer} {l : ReceiverPc}
    (h : ReceiverPc.locked l = false) : ReceiverPc.due clientIP os l = [] := by
  cases l with
  | dispatch | handler => cases h
  | _ => rfl

/- What is due, where no other receive thread holds `_subscribersMtx`. -/
theorem due_of_receiver {s : State U} {c : ℕ}
    (hlock : s.shared.subscribersMtx = some (.receiver c) ↔
      ReceiverPc.locked (s.pc (.receiver c)) = true)
    (hothers : ∀ d ≠ c, s.shared.subscribersMtx ≠ some (.receiver d)) :
    due s = ReceiverPc.due (s.shared.client c).ip s.shared.subscribers (s.pc (.receiver c)) := by
  by_cases hc : s.shared.subscribersMtx = some (.receiver c)
  · exact due_of_holder hc
  · rw [due_of_unlocked (Bool.eq_false_of_not_eq_true fun hl => hc (hlock.mpr hl))]
    refine due_of_others fun d => ?_
    by_cases hd : d = c
    · exact hd ▸ hc
    · exact hothers d hd

variable [DecidableEq U]

/- A thread's step leaves what another one has to tell. -/
theorem due_of_holder_move {s : State U} {t : Tid U} {d : ℕ} {m : Pc t}
    (hok : (safety S).Ok s) (ht : Tid.receiver d ≠ t) (hg : Guar S t s.shared y)
    (hd : s.shared.subscribersMtx = some (.receiver d)) : due (s.move t y m) = due s := by
  have hmove : y.subscribersMtx = some (.receiver d) := (hg.subscribersMtx _ ht).mpr hd
  have hlocked := ((hok.holds (.receiver d)).subscribersMtx).mp hd
  have hlt : d < s.shared.nextClient := (hok.holds (.receiver d)).knows.lt hlocked
  rw [due_of_holder hd, due_of_holder (s := s.move t y m) hmove, move_pc_of_ne s ht, move_shared,
    (hg.later d hlt).ip, hg.lockedSubscribers _ ht hd]

/- A receive thread's step, whoever holds `_subscribersMtx`. -/
theorem receiver_due {s : State U} {c : ℕ} {m : ReceiverPc} {e : Event} {new : List Notification}
    (hok : (safety S).Ok s) (hok' : (safety S).Ok (s.move (.receiver c) y m))
    (hg : Guar S (.receiver c) s.shared y) (hrun : (s.shared.client c).running = true)
    (he : ReceiverStep c s.shared (s.pc (.receiver c)) e y m)
    (hsub : y.subscribers = s.shared.subscribers)
    (htell : (notificationOf e).toList ++
      ReceiverPc.due (s.shared.client c).ip s.shared.subscribers m =
        ReceiverPc.due (s.shared.client c).ip s.shared.subscribers (s.pc (.receiver c)) ++ new) :
    (notificationOf e).toList ++ due (s.move (.receiver c) y m) = due s ++ new := by
  have hlock := (hok.holds (.receiver c)).subscribersMtx
  have hlock' := (hok'.holds (.receiver c)).subscribersMtx
  rw [move_pc, move_shared] at hlock'
  by_cases hheld : ∃ d ≠ c, s.shared.subscribersMtx = some (.receiver d)
  · obtain ⟨d, hdc, hd⟩ := hheld
    have ht : (Tid.receiver d : Tid U) ≠ .receiver c := fun heq => hdc (by injection heq)
    have hout : ReceiverPc.locked (s.pc (.receiver c)) = false := by
      refine Bool.eq_false_of_not_eq_true fun hl => ?_
      have hc := hlock.mpr hl
      rw [hd] at hc
      exact ht (Option.some_inj.mp hc)
    have hout' : ReceiverPc.locked m = false := by
      refine Bool.eq_false_of_not_eq_true fun hl => ?_
      have hc := hlock'.mpr hl
      rw [(hg.subscribersMtx _ ht).mpr hd] at hc
      exact ht (Option.some_inj.mp hc)
    rw [due_of_unlocked hout, due_of_unlocked hout', notificationOf_step he hout] at htell
    have hnew : new = [] := htell.symm
    rw [notificationOf_step he hout, hnew, due_of_holder_move hok ht hg hd, List.append_nil]
    rfl
  · have hothers : ∀ d ≠ c, s.shared.subscribersMtx ≠ some (.receiver d) :=
      fun d hdc hd => hheld ⟨d, hdc, hd⟩
    have hlt : c < s.shared.nextClient := hok.inv.made c (hok.inv.running c hrun).1
    have hdue : due (s.move (.receiver c) y m) =
        ReceiverPc.due (s.shared.client c).ip s.shared.subscribers m := by
      rw [due_of_receiver (s := s.move (.receiver c) y m), move_pc, move_shared, hsub,
        (hg.later c hlt).ip]
      · rw [move_pc, move_shared]
        exact hlock'
      · intro d hdc hd
        exact hothers d hdc ((hg.subscribersMtx _ fun heq => hdc (by injection heq)).mp hd)
    rw [hdue, due_of_receiver hlock hothers]
    exact htell

/-- The observers are told as if every event were told at the moment it is
published: to the observers subscribed by then, in the order of their
subscription, and to all of them before the next event is told to any. What is
missing while a thread holds `_subscribersMtx` is what that thread has still to
tell of the last event. -/
theorem atomic_broadcast {tr : List (Tid U × Event)} {s : State U} (h : (system S).Run tr s) :
    s.shared.subscribers = (broadcast tr).observers ∧
      notifications tr ++ due s = (broadcast tr).told ∧
      (s.shared.subscribersMtx = none → notifications tr = (broadcast tr).told) := by
  have hmain : s.shared.subscribers = (broadcast tr).observers ∧
      notifications tr ++ due s = (broadcast tr).told := by
    refine (safety S).invariant (I := fun tr s => s.shared.subscribers = (broadcast tr).observers ∧
      notifications tr ++ due s = (broadcast tr).told) ?_ ?_ h
    · rintro s ⟨fds, descriptors, -, hs⟩ -
      have hdue : due s = [] := due_of_others fun c hc => by rw [hs] at hc; cases hc
      rw [hdue, hs]
      exact ⟨rfl, rfl⟩
    · intro tr s t e y m hok ih he hy hg
      obtain ⟨hsub, htold⟩ := ih
      have hbroadcast : broadcast tr = ⟨s.shared.subscribers, notifications tr ++ due s⟩ := by
        rw [hsub, htold]
      have hok' : (safety S).Ok (s.move t y m) := (safety S).ok_step hok (.mk he)
      rw [broadcast_snoc, notifications_snoc, hbroadcast, List.append_assoc]
      by_cases ht : ∀ c, t ≠ .receiver c
      · obtain ⟨hmtx, hnone, hadd⟩ := others_tell ht (hok.holds t) he.2
        have hdue : due (s.move t y m) = due s := by
          by_cases hheld : ∃ d, s.shared.subscribersMtx = some (.receiver d)
          · obtain ⟨d, hd⟩ := hheld
            exact due_of_holder_move hok (ht d).symm hg hd
          · rw [due_of_others fun d hd => hheld ⟨d, hd⟩,
              due_of_others fun d hd => hheld ⟨d, hmtx ▸ hd⟩]
        rw [hadd, hnone, hdue]
        exact ⟨rfl, rfl⟩
      · obtain ⟨c, hc⟩ := not_forall.mp ht
        have htc := not_not.mp hc
        subst htc
        obtain ⟨hrun, hstep⟩ := he.2
        obtain ⟨hsame, new, hadd, htell⟩ := receiver_tells hstep
        rw [hadd, move_shared, hsame, receiver_due hok hok' hg hrun hstep hsame htell]
        exact ⟨rfl, (List.append_assoc ..).symm⟩
  refine ⟨hmain.1, hmain.2, fun hfree => ?_⟩
  have hdue : due s = [] := due_of_others fun c hc => by rw [hfree] at hc; cases hc
  rw [← hmain.2, hdue, List.append_nil]

/- An observer of every client. -/
def listener : Observer := ⟨[], some [], none⟩

theorem notify_listener {x : Shared Unit} {c k : ℕ} {msg : Bytes}
    (hk : x.subscribers[k]? = some listener) :
    ReceiverStep c x (.dispatch .incomingMsg msg k)
      (.notified k (x.client c).ip .incomingMsg msg) x (.handler .incomingMsg msg k []) := by
  have hcall : clientEventHandler (x.client c).ip .incomingMsg listener = some [] :=
    if_pos (.inr rfl)
  exact .notify hk hcall

def subscribedTwice : List Event :=
  [.call (.subscribe listener), .returned (.subscribe listener) .success,
    .call (.subscribe listener), .returned (.subscribe listener) .success]

/- The client sends a byte, and the first observer is told. -/
def toldFirst : List Event :=
  [.tau, .tau, .received (.data [65]) .incomingMsg [65], .published [] .incomingMsg [65],
    .notified 0 [] .incomingMsg [65]]

def toldTrace : List (Tid Unit × Event) :=
  (subscribedTwice ++ accepted).map (Prod.mk (.user ())) ++ toldFirst.map (Prod.mk (.receiver 0))

theorem exists_told : ∃ s, (system oneThread).Run toldTrace s ∧
    due s = [⟨1, [], .incomingMsg, [65]⟩] := by
  have h0 : (system oneThread).Run [] ⟨started, entry⟩ :=
    .init ⟨⟨_, _, fun _ => .inl rfl, rfl⟩, rfl⟩
  have h1 := Solo.run (i := Tid.user ()) h0
    (.cons ⟨rfl, .call (oneThread_may (.subscribe listener))⟩ <| .cons ⟨rfl, .subscribe rfl⟩ <|
      .cons ⟨rfl, .call (oneThread_may (.subscribe listener))⟩ <| .cons ⟨rfl, .subscribe rfl⟩ <|
      .cons ⟨rfl, .call (oneThread_may (.start true))⟩ <| .cons ⟨rfl, .addRemover⟩ <|
      .cons ⟨rfl, started_at 0 rfl⟩ <| .cons ⟨rfl, .call (oneThread_may (.acceptClient 0))⟩ <|
      .cons ⟨rfl, accept_at 1 rfl (by decide) rfl⟩ <| .cons ⟨rfl, .push rfl⟩ .nil)
  have h2 : (system oneThread).Run toldTrace _ := Solo.run (i := Tid.receiver 0) h1
    (.cons ⟨rfl, rfl, .check rfl⟩ <| .cons ⟨rfl, rfl, .ready⟩ <| .cons ⟨rfl, rfl, data_step⟩ <|
      .cons ⟨rfl, rfl, .lock rfl⟩ <| .cons ⟨rfl, rfl, notify_listener rfl⟩ .nil)
  exact ⟨_, h2, by decide⟩

theorem atomic_broadcast_told : ∃ s, (system oneThread).Run toldTrace s ∧
    notifications toldTrace ++ [⟨1, [], .incomingMsg, [65]⟩] = (broadcast toldTrace).told := by
  obtain ⟨s, hrun, hdue⟩ := exists_told
  exact ⟨s, hrun, hdue ▸ (atomic_broadcast hrun).2.1⟩

end OSwitch.TcpServer
