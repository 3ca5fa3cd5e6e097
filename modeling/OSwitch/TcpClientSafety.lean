import OSwitch.TcpClient

/-!
# What the owner of a client knows

The thread that connects and closes the client is the only one that opens and
closes sockets and creates threads. Where it connects only a closed client, the
thread that `_receiveTask` points to is the only one that may run.
-/

namespace OSwitch.TcpClient
open Wire StdText Trace Threads
open TcpServer (PipeRet Recv sizeT notAllSent)

variable {U : Type*} {S : Setting U} {t : Tid U} {x y : Shared U}

/-! ### The memory -/

structure Inv (x : Shared U) : Prop where
  running : ∀ k, x.running k = true → k < x.nextThread
  task : ∀ k, x.receiveTask = some k → k + 1 = x.nextThread
  sockets : ∀ fd n, x.descriptors fd = some (.socket n) → n < x.nextSocket
  unique : ∀ fd fd' n, x.descriptors fd = some (.socket n) →
    x.descriptors fd' = some (.socket n) → fd = fd'

/- What all threads but the owner leave alone. -/
structure Env (x y : Shared U) : Prop where
  sockfd : y.sockfd = x.sockfd
  isClosed : y.isClosed = x.isClosed
  receiveTask : y.receiveTask = x.receiveTask
  nextThread : y.nextThread = x.nextThread
  nextSocket : y.nextSocket = x.nextSocket
  isConnected : y.isConnected = true → x.isConnected = true
  running : ∀ k, y.running k = true → x.running k = true
  sockets : ∀ fd n, y.descriptors fd = some (.socket n) ↔ x.descriptors fd = some (.socket n)

theorem Env.refl (x : Shared U) : Env x x :=
  ⟨rfl, rfl, rfl, rfl, rfl, id, fun _ => id, fun _ _ => Iff.rfl⟩

structure Guar (S : Setting U) (t : Tid U) (x y : Shared U) : Prop where
  env : t ≠ .user S.owner → Env x y
  created : x.nextThread ≤ y.nextThread
  running : ∀ k < x.nextThread, t ≠ .receiver k → y.running k = x.running k
  new : ∀ k, x.nextThread ≤ k → k < y.nextThread → y.running k = true
  subscribersMtx : ∀ t' ≠ t, (y.subscribersMtx = some t' ↔ x.subscribersMtx = some t')

/-! ### The places of the owner -/

/- The places that only the owner of the client comes to. -/
def UserPc.owned : UserPc → Bool
  | .call .connectTo | .call .close | .resolve | .connecting | .starting | .created
  | .connected | .joining | .closeFd | .closed | .finish .close _ | .finish .connectTo _ => true
  | _ => false

/- In `connectTo`. -/
def UserPc.opening : UserPc → Bool
  | .call .connectTo | .resolve | .connecting | .starting | .created | .connected => true
  | _ => false

/- In `connectTo`, when the thread has been created. -/
def UserPc.late : UserPc → Bool
  | .created | .connected => true
  | _ => false

/- In `connectTo` before that, or in `close` after `join`. -/
def UserPc.threadless : UserPc → Bool
  | .call .connectTo | .resolve | .connecting | .starting | .closeFd | .closed
  | .finish .close _ => true
  | _ => false

/- Between the creation of the thread and the flag, or waiting for the thread. -/
def UserPc.unflagged : UserPc → Bool
  | .created | .joining => true
  | _ => false

/- In `close`, before the flag is set. -/
def UserPc.closing : UserPc → Bool
  | .joining | .closeFd | .closed => true
  | _ => false

/- Whether `_sockfd` is a socket of the client, from `_isClosed`. -/
def UserPc.attached : UserPc → Bool → Bool
  | .resolve, _ | .connecting, _ | .starting, _ | .created, _ | .connected, _ => true
  | .closed, _ => false
  | _, isClosed => !isClosed

/- What the owner knows when it connects only a closed client. -/
structure Disciplined (x : Shared U) (l : UserPc) : Prop where
  running : ∀ k, x.running k = true → x.receiveTask = some k
  connected : x.isConnected = true → x.receiveTask ≠ none ∧ UserPc.unflagged l = false
  opening : UserPc.opening l = true → x.isClosed = true
  late : UserPc.late l = true → x.receiveTask ≠ none
  threadless : UserPc.threadless l = true → x.receiveTask = none
  isClosed : x.isClosed = true → UserPc.late l = false → x.receiveTask = none

/- What it knows of the descriptor where `::close` does not fail. -/
def Attached (S : Setting U) (x : Shared U) (l : UserPc) : Prop :=
  UserPc.attached l x.isClosed = true →
    (S.reconnects ∧ x.sockfd = none) ∨ ∃ n, n + 1 = x.nextSocket ∧ x.held = some (.socket n)

structure UserHolds (S : Setting U) (u : U) (x : Shared U) (l : UserPc) : Prop where
  owned : UserPc.owned l = true → u = S.owner
  closing : u = S.owner → UserPc.closing l = true → x.isClosed = false ∧ x.isConnected = false
  disciplined : u = S.owner → ¬S.reconnects → Disciplined x l
  attached : u = S.owner → ¬S.closeFails → Attached S x l
  subscribersMtx : x.subscribersMtx ≠ some (.user u)

/- Telling the observers, under their mutex. -/
def ReceiverPc.telling : ReceiverPc → Bool
  | .dispatch _ _ => true
  | _ => false

/- A thread that was not created is at its beginning, and one that was runs until it
is done. -/
structure ReceiverHolds (k : ℕ) (x : Shared U) (l : ReceiverPc) : Prop where
  fresh : x.nextThread ≤ k → l = .check
  running : k < x.nextThread → (x.running k = false ↔ l = .done)
  subscribersMtx : x.subscribersMtx = some (.receiver k) ↔ ReceiverPc.telling l = true

def Holds (S : Setting U) : ∀ t : Tid U, Pc t → Shared U → Prop
  | .user u => fun l x => UserHolds S u x l
  | .receiver k => fun l x => ReceiverHolds k x l
  | .other => fun _ x => x.subscribersMtx ≠ some .other

theorem not_owned {u : U} {l : UserPc} (h : UserPc.owned l = true → u = S.owner)
    (hu : u ≠ S.owner) : UserPc.owned l = false :=
  Bool.eq_false_of_not_eq_true fun hl => hu (h hl)

theorem attached_closeFd (h : x.isClosed = false) :
    UserPc.attached .closeFd x.isClosed = true := by
  rw [h]
  rfl

/-! ### Stability -/

theorem Disciplined.stable {l : UserPc} (h : Disciplined x l) (henv : Env x y) :
    Disciplined y l where
  running := by
    intro k hk
    rw [henv.receiveTask]
    exact h.running k (henv.running k hk)
  connected := by
    intro hy
    rw [henv.receiveTask]
    exact h.connected (henv.isConnected hy)
  opening := by
    intro hl
    rw [henv.isClosed]
    exact h.opening hl
  late := by
    intro hl
    rw [henv.receiveTask]
    exact h.late hl
  threadless := by
    intro hl
    rw [henv.receiveTask]
    exact h.threadless hl
  isClosed := by
    intro hy hl
    rw [henv.isClosed] at hy
    rw [henv.receiveTask]
    exact h.isClosed hy hl

theorem Env.held (h : Env x y) (n : ℕ) :
    y.held = some (.socket n) ↔ x.held = some (.socket n) := by
  unfold Shared.held
  rw [h.sockfd]
  cases x.sockfd with
  | none => exact Iff.rfl
  | some fd => exact h.sockets fd n

theorem closing_stable (h : x.isClosed = false ∧ x.isConnected = false) (henv : Env x y) :
    y.isClosed = false ∧ y.isConnected = false := by
  refine ⟨henv.isClosed.trans h.1, Bool.eq_false_of_not_eq_true fun hy => ?_⟩
  rw [henv.isConnected hy] at h
  cases h.2

theorem attached_stable {l : UserPc} (h : Attached S x l) (henv : Env x y) :
    Attached S y l := by
  intro hl
  rw [henv.isClosed] at hl
  rcases h hl with ⟨hre, hnone⟩ | ⟨n, hn, hheld⟩
  · exact .inl ⟨hre, henv.sockfd.trans hnone⟩
  · exact .inr ⟨n, hn.trans henv.nextSocket.symm, (henv.held n).mpr hheld⟩

theorem receiverHolds_stable {k : ℕ} {l : ReceiverPc} (ht : t ≠ .receiver k) (hg : Guar S t x y)
    (h : ReceiverHolds k x l) : ReceiverHolds k y l := by
  refine ⟨?_, ?_, (hg.subscribersMtx _ ht.symm).trans h.subscribersMtx⟩
  · intro hle
    exact h.fresh (Nat.le_trans hg.created hle)
  · intro hlt
    by_cases hold : k < x.nextThread
    · rw [hg.running k hold ht]
      exact h.running hold
    · rw [hg.new k (Nat.le_of_not_lt hold) hlt, h.fresh (Nat.le_of_not_lt hold)]
      exact iff_of_false nofun nofun

theorem holds_stable {t' : Tid U} {l : Pc t'} (ht : t ≠ t') (hg : Guar S t x y)
    (h : Holds S t' l x) : Holds S t' l y := by
  cases t' with
  | user u =>
    have henv (hu : u = S.owner) : Env x y := hg.env fun heq => ht (by rw [heq, hu])
    exact ⟨h.owned, fun hu hl => closing_stable (h.closing hu hl) (henv hu),
      fun hu hno => (h.disciplined hu hno).stable (henv hu),
      fun hu hok => attached_stable (h.attached hu hok) (henv hu),
      fun hmtx => h.subscribersMtx ((hg.subscribersMtx _ ht.symm).mp hmtx)⟩
  | receiver k => exact receiverHolds_stable ht hg h
  | other => exact fun hmtx => h ((hg.subscribersMtx _ ht.symm).mp hmtx)

/-! ### The steps of the owner -/

theorem closeSocket_eq (x : Shared U) :
    x.closeSocket = { x with descriptors := x.closeSocket.descriptors } := by
  cases x with
  | mk sockfd => cases sockfd <;> rfl

theorem closeSocket_descriptors {fd : ℕ} {a : Holder}
    (h : x.closeSocket.descriptors fd = some a) :
    x.descriptors fd = some a ∧ x.sockfd ≠ some fd := by
  cases hfd : x.sockfd with
  | none =>
    rw [Shared.closeSocket, hfd] at h
    exact ⟨h, by simp⟩
  | some fd' =>
    rw [Shared.closeSocket, hfd] at h
    by_cases heq : fd = fd'
    · subst heq
      simp at h
    · simp only [Function.update_of_ne heq] at h
      exact ⟨h, fun hne => heq (Option.some.inj hne).symm⟩

/- Nothing but the place changes. -/
theorem Disciplined.move {l m : UserPc} (h : Disciplined x l)
    (hflag : UserPc.unflagged m = false)
    (hopening : UserPc.opening m = true → x.isClosed = true)
    (hlate : UserPc.late m = UserPc.late l)
    (hthreadless : UserPc.threadless m = true → x.receiveTask = none) : Disciplined x m where
  running := h.running
  connected := fun hc => ⟨(h.connected hc).1, hflag⟩
  opening := hopening
  late := fun hl => h.late (hlate ▸ hl)
  threadless := hthreadless
  isClosed := fun hc hl => h.isClosed hc (hlate ▸ hl)

theorem owned_step {u : U} {l m : UserPc} {e : Event} (h : UserPc.owned l = true → u = S.owner)
    (he : UserStep S u x l e y m) : UserPc.owned m = true → u = S.owner := by
  intro hm
  cases he with
  | @call op hmay =>
    cases op with
    | connectTo => exact hmay.1
    | close => exact hmay
    | sendMsg msg | subscribe o => cases hm
  | send | subscribe | finish => cases hm
  | _ => exact h rfl

theorem closing_step {u : U} {l m : UserPc} {e : Event}
    (h : UserPc.closing l = true → x.isClosed = false ∧ x.isConnected = false)
    (he : UserStep S u x l e y m) :
    UserPc.closing m = true → y.isClosed = false ∧ y.isConnected = false := by
  intro hm
  cases he with
  | disconnect hopen => exact ⟨hopen, rfl⟩
  | noThread | join => exact h rfl
  | closed =>
    rw [closeSocket_eq]
    exact h rfl
  | _ => cases hm

theorem disciplined_step {u : U} {l m : UserPc} {e : Event} (hno : ¬S.reconnects)
    (h : Disciplined x l) (he : UserStep S u x l e y m) : Disciplined y m := by
  cases he with
  | @call op hmay =>
    cases op with
    | connectTo =>
      have hclosed := hmay.2.resolve_right hno
      exact h.move rfl (fun _ => hclosed) rfl fun _ => h.isClosed hclosed rfl
    | _ => exact h.move rfl nofun rfl nofun
  | noSocket => exact ⟨h.running, h.connected, nofun, nofun, nofun, h.isClosed⟩
  | socket => exact ⟨h.running, h.connected, h.opening, nofun, h.threadless, h.isClosed⟩
  | notResolved | notConnected | send | isClosed | finish => exact h.move rfl nofun rfl nofun
  | resolved | connect => exact h.move rfl h.opening rfl h.threadless
  | create =>
    have hnone := h.threadless rfl
    constructor
    · intro k hk
      by_cases hnew : k = x.nextThread
      · rw [hnew]
        rfl
      · have hold : x.running k = true := by
          simpa [Shared.startThread, Function.update_of_ne hnew] using hk
        rw [h.running k hold] at hnone
        cases hnone
    · intro hc
      exact absurd hnone (h.connected hc).1
    · exact h.opening
    · intro _
      exact nofun
    · exact nofun
    · intro _ hl
      cases hl
  | connected =>
    exact ⟨h.running, fun _ => ⟨h.late rfl, rfl⟩, h.opening, h.late, nofun, nofun⟩
  | opened => exact ⟨h.running, h.connected, nofun, nofun, nofun, nofun⟩
  | subscribe => exact ⟨h.running, h.connected, nofun, nofun, nofun, h.isClosed⟩
  | disconnect => exact ⟨h.running, nofun, nofun, nofun, nofun, h.isClosed⟩
  | noThread hnone => exact h.move rfl nofun rfl fun _ => hnone
  | @join k htask hdone =>
    constructor
    · intro k' hk'
      have heq := h.running k' hk'
      rw [htask] at heq
      rw [← Option.some.inj heq, hdone] at hk'
      cases hk'
    · intro hc
      cases (h.connected hc).2
    · exact nofun
    · exact nofun
    · exact fun _ => rfl
    · exact fun _ _ => rfl
  | closed | closeFailed =>
    rw [closeSocket_eq]
    exact ⟨h.running, h.connected, nofun, nofun, h.threadless, h.isClosed⟩
  | close =>
    exact ⟨h.running, h.connected, nofun, nofun, h.threadless, fun _ _ => h.threadless rfl⟩

theorem attached_step {u : U} {l m : UserPc} {e : Event} (hok : ¬S.closeFails)
    (hclosing : UserPc.closing l = true → x.isClosed = false ∧ x.isConnected = false)
    (hd : ¬S.reconnects → Disciplined x l) (h : Attached S x l)
    (he : UserStep S u x l e y m) : Attached S y m := by
  intro hm
  cases he with
  | call | resolved | connect | send | isClosed | noThread | finish => exact h hm
  | create | connected | subscribe | disconnect | join => exact h hm
  | notResolved | notConnected | opened => exact h rfl
  | noSocket =>
    by_cases hre : S.reconnects
    · exact .inl ⟨hre, rfl⟩
    · have hclosed : x.isClosed = true := (hd hre).opening rfl
      rw [(Bool.not_eq_true' _).mp hm] at hclosed
      cases hclosed
  | socket => exact .inr ⟨x.nextSocket, rfl, Function.update_self ..⟩
  | closed | close => cases hm
  | closeFailed hfail =>
    rcases h (attached_closeFd (hclosing rfl).1) with ⟨hre, hnone⟩ | ⟨n, -, hn⟩
    · rw [closeSocket_eq]
      exact .inl ⟨hre, hnone⟩
    · rw [hn] at hfail
      exact absurd (hfail.resolve_left nofun) hok

theorem user_mutex {u : U} {l m : UserPc} {e : Event} (he : UserStep S u x l e y m) :
    y.subscribersMtx = x.subscribersMtx := by
  cases he with
  | closed | closeFailed => rw [closeSocket_eq]
  | _ => rfl

theorem userHolds_step {u : U} {l m : UserPc} {e : Event} (h : UserHolds S u x l)
    (he : UserStep S u x l e y m) : UserHolds S u y m where
  owned := owned_step h.owned he
  closing := fun hu => closing_step (h.closing hu) he
  disciplined := fun hu hno => disciplined_step hno (h.disciplined hu hno) he
  attached := fun hu hok =>
    attached_step hok (h.closing hu) (h.disciplined hu) (h.attached hu hok) he
  subscribersMtx := by
    rw [user_mutex he]
    exact h.subscribersMtx

/-! ### The memory under a step -/

theorem openSocket_inv {fd : ℕ} (h : Inv x) (hfd : x.descriptors fd = none) :
    Inv (x.openSocket fd) := by
  have hold {fd' n : ℕ} (hn : (x.openSocket fd).descriptors fd' = some (.socket n)) :
      fd' = fd ∧ n = x.nextSocket ∨ fd' ≠ fd ∧ x.descriptors fd' = some (.socket n) := by
    by_cases heq : fd' = fd
    · subst heq
      simp only [Shared.openSocket, Function.update_self, Option.some.injEq,
        Holder.socket.injEq] at hn
      exact .inl ⟨rfl, hn.symm⟩
    · simp only [Shared.openSocket, Function.update_of_ne heq] at hn
      exact .inr ⟨heq, hn⟩
  refine ⟨h.running, h.task, ?_, ?_⟩
  · intro fd' n hn
    show n < x.nextSocket + 1
    rcases hold hn with ⟨-, hn⟩ | ⟨-, hn⟩
    · omega
    · have := h.sockets fd' n hn
      omega
  · intro fd₁ fd₂ n h₁ h₂
    rcases hold h₁ with ⟨rfl, rfl⟩ | ⟨-, h₁⟩
    · rcases hold h₂ with ⟨h₂, -⟩ | ⟨-, h₂⟩
      · exact h₂.symm
      · exact absurd (h.sockets fd₂ _ h₂) (Nat.lt_irrefl _)
    · rcases hold h₂ with ⟨-, rfl⟩ | ⟨-, h₂⟩
      · exact absurd (h.sockets fd₁ _ h₁) (Nat.lt_irrefl _)
      · exact h.unique fd₁ fd₂ n h₁ h₂

theorem startThread_inv (h : Inv x) : Inv x.startThread := by
  refine ⟨?_, ?_, h.sockets, h.unique⟩
  · intro k hk
    show k < x.nextThread + 1
    by_cases heq : k = x.nextThread
    · omega
    · simp only [Shared.startThread, Function.update_of_ne heq] at hk
      have := h.running k hk
      omega
  · intro k hk
    cases hk
    rfl

theorem closeSocket_inv (h : Inv x) : Inv x.closeSocket := by
  have hsockets {fd n} (hn : x.closeSocket.descriptors fd = some (.socket n)) :=
    (closeSocket_descriptors hn).1
  rw [closeSocket_eq]
  exact ⟨h.running, h.task, fun fd n hn => h.sockets fd n (hsockets hn),
    fun fd₁ fd₂ n h₁ h₂ => h.unique fd₁ fd₂ n (hsockets h₁) (hsockets h₂)⟩

theorem userInv_step {u : U} {l m : UserPc} {e : Event} (h : Inv x)
    (he : UserStep S u x l e y m) : Inv y := by
  cases he with
  | socket hfd => exact openSocket_inv h hfd
  | create => exact startThread_inv h
  | join => exact ⟨h.running, nofun, h.sockets, h.unique⟩
  | closed | closeFailed => exact closeSocket_inv h
  | _ => exact ⟨h.running, h.task, h.sockets, h.unique⟩

/- The owner leaves the threads alone, and nobody else does more than send and
subscribe. -/
theorem userGuar_step {u : U} {l m : UserPc} {e : Event} (h : UserPc.owned l = true → u = S.owner)
    (he : UserStep S u x l e y m) : Guar S (.user u) x y := by
  have hown : x.nextThread = y.nextThread ∧ x.running = y.running ∨
      y = x.startThread := by
    cases he with
    | create => exact .inr rfl
    | closed | closeFailed =>
      rw [closeSocket_eq]
      exact .inl ⟨rfl, rfl⟩
    | _ => exact .inl ⟨rfl, rfl⟩
  refine ⟨?_, ?_, ?_, ?_, fun t' _ => by rw [user_mutex he]⟩
  · intro hne
    have hfree := not_owned h fun hu => hne (by rw [hu])
    cases he with
    | call | send | finish => exact .refl x
    | subscribe => exact ⟨rfl, rfl, rfl, rfl, rfl, id, fun _ => id, fun _ _ => Iff.rfl⟩
    | _ => cases hfree
  · rcases hown with ⟨hthread, -⟩ | rfl
    · exact hthread.le
    · exact Nat.le_succ _
  · intro k hlt _
    rcases hown with ⟨-, hrun⟩ | rfl
    · rw [hrun]
    · exact Function.update_of_ne (Nat.ne_of_lt hlt) ..
  · intro k hle hlt
    rcases hown with ⟨hthread, -⟩ | rfl
    · omega
    · have heq : k = x.nextThread := Nat.le_antisymm (Nat.le_of_lt_succ hlt) hle
      rw [heq]
      exact Function.update_self ..

/-! ### The steps of the other threads -/

theorem receiver_ended {k : ℕ} {l m : ReceiverPc} {e : Event} (hrun : x.running k = true)
    (he : ReceiverStep k x l e y m) : y.running k = false ↔ m = .done := by
  cases he with
  | ret => exact iff_of_true (Function.update_self ..) rfl
  | _ => exact iff_of_false (fun hy => Bool.false_ne_true (hy.symm.trans hrun)) nofun

theorem receiver_running {k k' : ℕ} {l m : ReceiverPc} {e : Event} (hk' : k' ≠ k)
    (he : ReceiverStep k x l e y m) : y.running k' = x.running k' := by
  cases he with
  | ret => exact Function.update_of_ne hk' ..
  | _ => rfl

theorem receiver_env {k : ℕ} {l m : ReceiverPc} {e : Event} (he : ReceiverStep k x l e y m) :
    Env x y := by
  cases he with
  | ret =>
    refine ⟨rfl, rfl, rfl, rfl, rfl, id, ?_, fun _ _ => Iff.rfl⟩
    intro k' hk'
    by_cases heq : k' = k
    · simp [Shared.endThread, heq] at hk'
    · exact (Function.update_of_ne heq ..).symm.trans hk'
  | closed => exact ⟨rfl, rfl, rfl, rfl, rfl, nofun, fun _ => id, fun _ _ => Iff.rfl⟩
  | _ => exact ⟨rfl, rfl, rfl, rfl, rfl, id, fun _ => id, fun _ _ => Iff.rfl⟩

theorem Inv.of_env (h : Inv x) (henv : Env x y) : Inv y := by
  refine ⟨?_, ?_, ?_, ?_⟩
  · intro k' hk'
    rw [henv.nextThread]
    exact h.running k' (henv.running k' hk')
  · intro k' hk'
    rw [henv.receiveTask] at hk'
    rw [henv.nextThread]
    exact h.task k' hk'
  · intro fd n hn
    rw [henv.nextSocket]
    exact h.sockets fd n ((henv.sockets fd n).mp hn)
  · intro fd₁ fd₂ n h₁ h₂
    exact h.unique fd₁ fd₂ n ((henv.sockets fd₁ n).mp h₁) ((henv.sockets fd₂ n).mp h₂)

theorem receiver_mutex {k : ℕ} {l m : ReceiverPc} {e : Event} (h : ReceiverHolds k x l)
    (he : ReceiverStep k x l e y m) :
    (y.subscribersMtx = some (.receiver k) ↔ ReceiverPc.telling m = true) ∧
      ∀ t' ≠ .receiver k, (y.subscribersMtx = some t' ↔ x.subscribersMtx = some t') := by
  have hmtx := h.subscribersMtx
  cases he with
  | lock hnone =>
    refine ⟨iff_of_true rfl rfl, fun t' ht' => iff_of_false ?_ ?_⟩
    · exact fun heq => ht' (Option.some.inj heq).symm
    · rw [hnone]
      exact nofun
  | again | finish =>
    refine ⟨iff_of_false nofun nofun, fun t' ht' => iff_of_false nofun ?_⟩
    rw [hmtx.mpr rfl]
    exact fun heq => ht' (Option.some.inj heq).symm
  | _ => exact ⟨hmtx, fun _ _ => Iff.rfl⟩

theorem receiver_guar {k : ℕ} {l m : ReceiverPc} {e : Event} (h : ReceiverHolds k x l)
    (he : ReceiverStep k x l e y m) : Guar S (.receiver k) x y where
  env := fun _ => receiver_env he
  created := (receiver_env he).nextThread.ge
  running := fun _ _ hne => receiver_running (fun heq => hne (by rw [heq])) he
  new := by
    intro k' hle hlt
    rw [(receiver_env he).nextThread] at hlt
    omega
  subscribersMtx := (receiver_mutex h he).2

theorem receiverHolds_step {k : ℕ} {l m : ReceiverPc} {e : Event} (hx : Inv x)
    (hrun : x.running k = true) (h : ReceiverHolds k x l) (he : ReceiverStep k x l e y m) :
    ReceiverHolds k y m := by
  refine ⟨?_, ?_, (receiver_mutex h he).1⟩
  · intro hle
    rw [(receiver_env he).nextThread] at hle
    have := hx.running k hrun
    omega
  · exact fun _ => receiver_ended hrun he

theorem other_env {e : Event} (he : OtherStep x e y) : Env x y := by
  have hsockets (fd : ℕ) (a b : Option Holder) (hfd : x.descriptors fd = a)
      (ha : ∀ n, a ≠ some (.socket n)) (hb : ∀ n, b ≠ some (.socket n)) (fd' n : ℕ) :
      Function.update x.descriptors fd b fd' = some (.socket n) ↔
        x.descriptors fd' = some (.socket n) := by
    by_cases heq : fd' = fd
    · subst heq
      rw [Function.update_self, hfd]
      exact iff_of_false (hb n) (ha n)
    · rw [Function.update_of_ne heq]
  cases he with
  | opens hfd =>
    exact ⟨rfl, rfl, rfl, rfl, rfl, id, fun _ => id, hsockets _ _ _ hfd nofun nofun⟩
  | closes hfd =>
    exact ⟨rfl, rfl, rfl, rfl, rfl, id, fun _ => id, hsockets _ _ _ hfd nofun nofun⟩

/-! ### Every run -/

theorem start_inv {descriptors : ℕ → Option Holder}
    (h : ∀ fd, descriptors fd = none ∨ descriptors fd = some .other) :
    Inv (.start descriptors : Shared U) := by
  have hnone (fd n : ℕ) : descriptors fd ≠ some (.socket n) := by
    rcases h fd with hfd | hfd <;> rw [hfd] <;> exact nofun
  exact ⟨nofun, nofun, fun fd n hn => absurd hn (hnone fd n),
    fun fd _ n hn => absurd hn (hnone fd n)⟩

theorem other_running {e : Event} (he : OtherStep x e y) : y.running = x.running := by
  cases he <;> rfl

theorem other_mutex {e : Event} (he : OtherStep x e y) :
    y.subscribersMtx = x.subscribersMtx := by
  cases he <;> rfl

theorem other_guar {e : Event} (he : OtherStep x e y) : Guar S .other x y where
  env := fun _ => other_env he
  created := (other_env he).nextThread.ge
  running := fun k _ _ => congrFun (other_running he) k
  new := by
    intro k hle hlt
    rw [(other_env he).nextThread] at hlt
    omega
  subscribersMtx := fun t' _ => by rw [other_mutex he]

/- The owner of a client that was never connected. -/
theorem start_disciplined (descriptors : ℕ → Option Holder) :
    Disciplined (.start descriptors : Shared U) .idle :=
  ⟨nofun, nofun, nofun, nofun, nofun, fun _ _ => rfl⟩

theorem start_holds (descriptors : ℕ → Option Holder) (t : Tid U) :
    Holds S t (entry t) (.start descriptors) := by
  cases t with
  | user u =>
    exact ⟨nofun, fun _ => nofun, fun _ _ => start_disciplined descriptors, fun _ _ => nofun,
      nofun⟩
  | receiver k => exact ⟨fun _ => rfl, nofun, nofun, nofun⟩
  | other => exact nofun

theorem holds_step {l m : Pc t} {e : Event} (hx : Inv x) (h : Holds S t l x)
    (he : (program S).step t x l e y m) : Inv y ∧ Holds S t m y ∧ Guar S t x y := by
  obtain ⟨-, he⟩ := he
  cases t with
  | user u => exact ⟨userInv_step hx he, userHolds_step h he, userGuar_step h.owned he⟩
  | receiver k =>
    obtain ⟨hrun, he⟩ := he
    exact ⟨hx.of_env (receiver_env he), receiverHolds_step hx hrun h he, receiver_guar h he⟩
  | other =>
    have hmtx : y.subscribersMtx ≠ some .other := fun heq => h ((other_mutex he).symm.trans heq)
    exact ⟨hx.of_env (other_env he), hmtx, other_guar he⟩

def safety (S : Setting U) : RelyGuarantee (program S) where
  inv := Inv
  holds := Holds S
  guar := Guar S
  init := by
    rintro x ⟨descriptors, hother, rfl⟩
    exact ⟨start_inv hother, start_holds descriptors⟩
  step := fun _ _ _ _ _ _ hx h he => holds_step hx h he
  stable := fun _ _ _ _ _ ht _ _ hg h => holds_stable ht hg h

variable [DecidableEq U] {tr : List (Tid U × Event)} {s : State U}

theorem run_ok (h : (system S).Run tr s) : (safety S).Ok s := (safety S).run h

theorem run_disciplined (hno : ¬S.reconnects) (h : (system S).Run tr s) :
    Disciplined s.shared (s.pc (.user S.owner)) :=
  ((run_ok h).holds (.user S.owner)).disciplined rfl hno

end OSwitch.TcpClient
