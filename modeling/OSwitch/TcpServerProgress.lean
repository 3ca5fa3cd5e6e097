import Mathlib.Data.List.Perm.Subperm
import OSwitch.TcpServerLifetime

/-!
# Handlers and deadlock

A handler runs in the thread of a client, under `_subscribersMtx`; a comment of
the source says that it must not call other functions of the server. All of them
but `start` take a mutex. Where no handler calls one of these, every call of the
server can come to its end from wherever it is, whatever the other threads are
doing. Where one does, `close` may wait forever.
-/

namespace OSwitch.TcpServer
open Wire StdText Trace Threads

variable {U : Type*} {S : Setting U} {x y : Shared U}

/- The handlers of the observer call no function that takes a mutex of the server. -/
def Observer.Quiet (o : Observer) : Prop :=
  (∀ calls, o.incomingPacketHandler = some calls → calls = []) ∧
    ∀ calls, o.disconnectionHandler = some calls → calls = []

def Setting.Quiet (S : Setting U) : Prop := ∀ o, S.observers o → o.Quiet

theorem Observer.Quiet.calls {o : Observer} (h : o.Quiet) {clientIP : Bytes} {e : ClientEvent}
    {calls : Handler} (hcall : clientEventHandler clientIP e o = some calls) : calls = [] := by
  cases e with
  | disconnected =>
    change (if o.wantedIP = clientIP then o.disconnectionHandler else none) = some calls at hcall
    split at hcall
    · exact h.2 calls hcall
    · cases hcall
  | incomingMsg =>
    change (if o.wantedIP = clientIP ∨ o.wantedIP = [] then o.incomingPacketHandler else none) =
      some calls at hcall
    split at hcall
    · exact h.1 calls hcall
    · cases hcall

/-! ### Where the program can go on -/

/- The program neither makes a new call nor terminates. -/
def Event.calm : Event → Bool
  | .call _ | .terminate => false
  | _ => true

/- The observers are those of the program, and no handler waits for a mutex. -/
structure Unblocked (S : Setting U) (s : State U) : Prop where
  subscribed : ∀ o ∈ s.shared.subscribers, S.observers o
  handler : ∀ c e msg k calls, s.pc (.receiver c) = .handler e msg k calls → calls = []

theorem subscribed_step {t : Tid U} {l m : Pc t} {e : Event} (h : Holds S t l x)
    (he : step S t x l e y m) (hx : ∀ o ∈ x.subscribers, S.observers o) :
    ∀ o ∈ y.subscribers, S.observers o := by
  cases t with
  | receiver c => cases he.2 <;> exact hx
  | remover j => cases he.2 <;> exact hx
  | other => cases he <;> exact hx
  | user u =>
    have hknows := h.knows
    cases he with
    | @addRemover remove => cases remove <;> exact hx
    | closeServer | closeServerFailed => cases hl : x.sockfd <;> exact hx
    | subscribe =>
      intro o ho
      rcases List.mem_append.mp ho with ho | ho
      · exact hx o ho
      · rw [List.mem_singleton.mp ho]
        exact hknows
    | _ => exact hx

theorem handler_step (hquiet : S.Quiet) {c : ℕ} {l m : ReceiverPc} {e : Event}
    (he : ReceiverStep c x l e y m) (hx : ∀ o ∈ x.subscribers, S.observers o)
    (hl : ∀ ev msg k calls, l = .handler ev msg k calls → calls = []) :
    ∀ ev msg k calls, m = .handler ev msg k calls → calls = [] := by
  intro ev msg k calls hm
  cases he with
  | notify ho hcall =>
    injection hm with _ _ _ hcalls
    rw [← hcalls]
    exact (hquiet _ (hx _ (List.mem_of_getElem? ho))).calls hcall
  | enter => cases hl _ _ _ _ rfl
  | _ => cases hm

/- `terminate` apart, only a remover's failing `::close` ends the process. -/
theorem terminated_step (hreliable : ¬S.closeFails) {t : Tid U} {l m : Pc t} {e : Event}
    (h : Holds S t l x) (he : step S t x l e y m) (hcalm : e.calm = true) :
    y.terminated = x.terminated := by
  cases t with
  | receiver c =>
    obtain ⟨-, he⟩ := he
    cases he with
    | waitFailed => cases hcalm
    | _ => rfl
  | remover j =>
    obtain ⟨-, he⟩ := he
    cases he with
    | closeFailed hfailed =>
      exact absurd (closeFails_of_failed h.knows.2.1 hfailed) hreliable
    | _ => rfl
  | other => cases he <;> rfl
  | user u =>
    cases he with
    | @addRemover remove => cases remove <;> rfl
    | closeServer | closeServerFailed => cases hl : x.sockfd <;> rfl
    | _ => rfl

/- A thread that is neither at its beginning nor done has not returned. -/
theorem ThreadState.running {c : ℕ} {l : ReceiverPc} (h : ThreadState (.receiver c) x l)
    (hcheck : l ≠ .check) (hdone : l ≠ .done) : (x.client c).running = true := by
  by_contra hrun
  have hlt : c < x.nextClient := Nat.lt_of_not_le fun hle => hcheck (h.1 hle)
  exact hdone (h.2 hlt (Bool.eq_false_of_not_eq_true hrun))

variable [DecidableEq U]

structure Fit (S : Setting U) (s : State U) : Prop where
  ok : (safety S).Ok s
  unblocked : Unblocked S s
  terminated : s.shared.terminated = false

omit [DecidableEq U] in
theorem Fit.running {s : State U} (hs : Fit S s) {c : ℕ} {l : ReceiverPc}
    (hpc : s.pc (.receiver c) = l) (hcheck : l ≠ .check) (hdone : l ≠ .done) :
    (s.shared.client c).running = true := by
  have hstate := (hs.ok.holds (.receiver c)).threadState
  rw [hpc] at hstate
  exact hstate.running hcheck hdone

theorem unblocked_step (hquiet : S.Quiet) {s : State U} {t : Tid U} {e : Event} {m : Pc t}
    (hholds : Holds S t (s.pc t) s.shared) (h : Unblocked S s)
    (he : step S t s.shared (s.pc t) e y m) : Unblocked S (s.move t y m) := by
  refine ⟨subscribed_step hholds he h.subscribed, ?_⟩
  intro c ev msg k calls hpc
  by_cases ht : t = .receiver c
  · subst ht
    rw [move_pc] at hpc
    exact handler_step hquiet he.2 h.subscribed (h.handler c) ev msg k calls hpc
  · rw [move_pc_of_ne s (Ne.symm ht)] at hpc
    exact h.handler c ev msg k calls hpc

theorem fit_step (hreliable : ¬S.closeFails) (hquiet : S.Quiet) {s : State U} {t : Tid U}
    {e : Event} {m : Pc t} (h : Fit S s) (hcalm : e.calm = true)
    (he : step S t s.shared (s.pc t) e y m) : Fit S (s.move t y m) :=
  ⟨(safety S).ok_step h.ok (.mk ⟨h.terminated, he⟩),
    unblocked_step hquiet (h.ok.holds t) h.unblocked he,
    (terminated_step hreliable (h.ok.holds t) he hcalm).trans h.terminated⟩

/- What holds later on, when only threads of `A` have moved. -/
structure Since (S : Setting U) (A : Tid U → Prop) (s s' : State U) : Prop where
  pc : ∀ t, ¬A t → s'.pc t = s.pc t
  clientsMtx : ∀ t, ¬A t → (s'.shared.clientsMtx = some t ↔ s.shared.clientsMtx = some t)
  subscribersMtx : ∀ t, ¬A t →
    (s'.shared.subscribersMtx = some t ↔ s.shared.subscribersMtx = some t)
  made : s.shared.nextClient ≤ s'.shared.nextClient
  off : ∀ c < s.shared.nextClient, (s.shared.client c).isConnected = false →
    (s'.shared.client c).isConnected = false
  clients : ¬A (.user S.acceptor) → s'.shared.clients ⊆ s.shared.clients
  stop : s.shared.stopRemoveClientsTask = true → s'.shared.stopRemoveClientsTask = true

omit [DecidableEq U] in
theorem Since.refl (S : Setting U) (A : Tid U → Prop) (s : State U) : Since S A s s :=
  ⟨fun _ _ => rfl, fun _ _ => Iff.rfl, fun _ _ => Iff.rfl, le_refl _, fun _ _ => id,
    fun _ => List.Subset.refl _, id⟩

theorem Since.snoc {A : Tid U → Prop} {s s' : State U} (h : Since S A s s') {t : Tid U} {m : Pc t}
    (ht : A t) (hg : Guar S t s'.shared y) : Since S A s (s'.move t y m) := by
  have hne : ∀ t', ¬A t' → t' ≠ t := fun t' ht' heq => ht' (by rw [heq]; exact ht)
  refine ⟨?_, ?_, ?_, Nat.le_trans h.made hg.made, ?_, ?_, fun hs => hg.stop (h.stop hs)⟩
  · intro t' ht'
    rw [move_pc_of_ne s' (hne t' ht')]
    exact h.pc t' ht'
  · intro t' ht'
    exact (hg.clientsMtx t' (hne t' ht')).trans (h.clientsMtx t' ht')
  · intro t' ht'
    exact (hg.subscribersMtx t' (hne t' ht')).trans (h.subscribersMtx t' ht')
  · intro c hc hoff
    exact isConnected_stable hg (Nat.lt_of_lt_of_le hc h.made) (h.off c hc hoff)
  · intro ha
    exact fun c hc => h.clients ha ((hg.accepts fun heq => ha (by rw [← heq]; exact ht)).2 hc)

/- Threads of `A` can bring the program to a state with `G`. -/
def Can (S : Setting U) (A : Tid U → Prop) (s : State U) (G : State U → Prop) : Prop :=
  Leads (program S) (fun t e => A t ∧ e.calm = true) G s

section
variable (hreliable : ¬S.closeFails) (hquiet : S.Quiet)
include hreliable hquiet

theorem Can.bind {A B : Tid U → Prop} {s : State U} {G H : State U → Prop} (hs : Fit S s)
    (h : Can S A s G) (hAB : ∀ t, A t → B t)
    (hrest : ∀ s', Fit S s' → Since S A s s' → G s' → Can S B s' H) : Can S B s H := by
  have hframe := Leads.frame (F := fun s' => Fit S s' ∧ Since S A s s') ?_ ⟨hs, .refl S A s⟩ h
  · refine (Leads.mono (fun t e ht => ⟨hAB t ht.1, ht.2⟩) hframe).bind fun s' hs' => ?_
    exact hrest s' hs'.1.1 hs'.1.2 hs'.2
  · intro s' t e y m hs' hmay he
    have hok := hs'.1.ok
    have hg := ((safety S).step t _ _ e y m hok.inv (hok.holds t) he).2.2
    exact ⟨fit_step hreliable hquiet hs'.1 hmay.2 he.2, hs'.2.snoc hmay.1 hg⟩

theorem Can.step {A : Tid U → Prop} {s : State U} {G : State U → Prop} {t : Tid U} {l m : Pc t}
    {e : Event} (hs : Fit S s) (hpc : s.pc t = l) (ht : A t) (he : step S t s.shared l e y m)
    (hcalm : e.calm = true) (hrest : Fit S (s.move t y m) → Can S A (s.move t y m) G) :
    Can S A s G := by
  subst hpc
  exact Leads.step ⟨ht, hcalm⟩ ⟨hs.terminated, he⟩
    (hrest (fit_step hreliable hquiet hs hcalm he))

/-! ### The observers are told -/

theorem dispatch_ends {c n : ℕ} {e : ClientEvent} {msg : Bytes} {k : ℕ} {s : State U}
    (hs : Fit S s) (hpc : s.pc (.receiver c) = .dispatch e msg k)
    (hn : s.shared.subscribers.length - k = n) :
    Can S (· = .receiver c) s fun s' => s'.shared.subscribersMtx = none ∧
      (s'.pc (.receiver c) = .check ∨ s'.pc (.receiver c) = .ret) := by
  induction n generalizing k s with
  | zero =>
    have hrun := hs.running hpc (fun hl => by cases hl) fun hl => by cases hl
    have hend : s.shared.subscribers[k]? = none := List.getElem?_eq_none (by omega)
    cases e with
    | incomingMsg =>
      refine Can.step hreliable hquiet hs hpc rfl ⟨hrun, .again hend⟩ rfl fun _ => .here ?_
      exact ⟨rfl, .inl (move_pc ..)⟩
    | disconnected =>
      refine Can.step hreliable hquiet hs hpc rfl ⟨hrun, .finish hend⟩ rfl fun _ => .here ?_
      exact ⟨rfl, .inr (move_pc ..)⟩
  | succ n ih =>
    have hrun := hs.running hpc (fun hl => by cases hl) fun hl => by cases hl
    have hk : k < s.shared.subscribers.length := by omega
    have ho : s.shared.subscribers[k]? = some s.shared.subscribers[k] :=
      List.getElem?_eq_getElem hk
    have hnext : s.shared.subscribers.length - (k + 1) = n := by omega
    cases hcall : clientEventHandler (s.shared.client c).ip e s.shared.subscribers[k] with
    | none =>
      refine Can.step hreliable hquiet hs hpc rfl ⟨hrun, .skip ho hcall⟩ rfl fun hs' => ?_
      exact ih hs' (move_pc ..) hnext
    | some calls =>
      have hcalls : calls = [] :=
        (hquiet _ (hs.unblocked.subscribed _ (List.getElem_mem hk))).calls hcall
      subst hcalls
      refine Can.step hreliable hquiet hs hpc rfl ⟨hrun, .notify ho hcall⟩ rfl
        fun hs' => ?_
      refine Can.step hreliable hquiet hs' (move_pc ..) rfl ⟨hrun, .leave⟩ rfl fun hs'' => ?_
      exact ih hs'' (move_pc ..) hnext

end

/- `close` holds `_clientsMtx` and waits for client `c`'s thread, whose handler
waits for a mutex. -/
structure Stuck (S : Setting U) (c : ℕ) (s : State U) : Prop where
  ok : (safety S).Ok s
  closer : ∃ rest, s.pc (.user S.closer) = .join c rest
  receiver : ∃ e msg k m calls, s.pc (.receiver c) = .handler e msg k (m :: calls)

end OSwitch.TcpServer
