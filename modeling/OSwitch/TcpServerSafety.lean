import Mathlib.Data.List.Nodup
import OSwitch.TcpServer

/-!
# Who may touch a client, and who may delete it

The invariant of the memory that the server's threads share, what each thread
knows at each place, and what it leaves alone. The list of clients and the
resources of the clients in it belong to whoever holds `_clientsMtx`; a client
that is not in the list yet belongs to the thread that accepts it.
-/

namespace OSwitch.TcpServer
open Wire Trace Threads

variable {U : Type*} {S : Setting U} {t : Tid U} {x y : Shared U}

/- Client `c` still has its thread or its descriptor. -/
def Shared.Live (x : Shared U) (c : ℕ) : Prop :=
  (x.client c).running = true ∨ x.descriptors (x.client c).sockfd = some (.client c)

/-! ### The invariant of the memory -/

structure Inv (S : Setting U) (x : Shared U) : Prop where
  nodup : x.clients.Nodup
  listed : ∀ c ∈ x.clients, (x.client c).alive = true
  made : ∀ c, (x.client c).alive = true → c < x.nextClient
  running : ∀ c, (x.client c).running = true →
    (x.client c).alive = true ∧ (x.client c).receiveThread = true
  named : ∀ fd c, x.descriptors fd = some (.client c) →
    c < x.nextClient ∧ (x.client c).sockfd = fd
  sockfd : ∀ c, x.held x.sockfd ≠ some (.client c)
  own : ¬S.closeFails → ∀ c, (x.client c).receiveThread = true →
    x.descriptors (x.client c).sockfd = some (.client c)
  free : ¬S.closeFails → x.clientsMtx = none →
    ∀ c ∈ x.clients, (x.client c).receiveThread = true
  removers : ∀ j, x.removerRunning j = true → j < x.nextRemover
  lastRemover : ∀ j, x.clientsRemoverThread = some j → j + 1 = x.nextRemover
  joined : x.clientsRemoverThread = none → (0 < x.nextRemover → x.stopRemoveClientsTask = true) ∧
    ∀ j, j + 1 = x.nextRemover → x.removerRunning j = false

theorem Inv.lt (h : Inv S x) {c : ℕ} (hc : c ∈ x.clients) : c < x.nextClient :=
  h.made c (h.listed c hc)

theorem Inv.lt_of_live (h : Inv S x) {c : ℕ} (hc : x.Live c) : c < x.nextClient := by
  rcases hc with hrun | hfd
  · exact h.made c (h.running c hrun).1
  · exact (h.named _ c hfd).1

/-! ### What a thread leaves to the others -/

/- A client's record later on. -/
structure Later (k k' : Client) : Prop where
  sockfd : k'.sockfd = k.sockfd
  ip : k'.ip = k.ip
  isConnected : k'.isConnected = true → k.isConnected = true
  receiveThread : k'.receiveThread = true → k.receiveThread = true
  running : k'.running = true → k.running = true
  alive : k'.alive = true → k.alive = true

theorem Later.refl (k : Client) : Later k k := ⟨rfl, rfl, id, id, id, id⟩

/- What no other thread changes while `_clientsMtx` is held. -/
def SameClients (x y : Shared U) : Prop :=
  y.clients = x.clients ∧ ∀ c ∈ x.clients,
    (y.client c).receiveThread = (x.client c).receiveThread ∧
      (x.descriptors (x.client c).sockfd = some (.client c) →
        y.descriptors (y.client c).sockfd = some (.client c))

theorem sameClients_refl (x : Shared U) : SameClients x x := ⟨rfl, fun _ _ => ⟨rfl, id⟩⟩

structure Guar (S : Setting U) (t : Tid U) (x y : Shared U) : Prop where
  clientsMtx : ∀ t' ≠ t, (y.clientsMtx = some t' ↔ x.clientsMtx = some t')
  subscribersMtx : ∀ t' ≠ t, (y.subscribersMtx = some t' ↔ x.subscribersMtx = some t')
  locked : ∀ t' ≠ t, x.clientsMtx = some t' → SameClients x y
  lockedSubscribers : ∀ t' ≠ t, x.subscribersMtx = some t' → y.subscribers = x.subscribers
  accepts : t ≠ .user S.acceptor → y.nextClient = x.nextClient ∧ y.clients ⊆ x.clients
  keeps : ∀ c ∈ x.clients, y.Live c → c ∈ y.clients
  spares : ∀ c, c ∉ x.clients → (x.client c).alive = true → (y.client c).alive = true ∧
    ((x.client c).receiveThread = true → (y.client c).receiveThread = true)
  made : x.nextClient ≤ y.nextClient
  later : ∀ c < x.nextClient, Later (x.client c) (y.client c)
  released : ∀ c < x.nextClient, ∀ fd, y.descriptors fd = some (.client c) →
    x.descriptors fd = some (.client c)
  running : ∀ c, t ≠ .receiver c → (x.client c).running = true → (y.client c).running = true
  removers : x.nextRemover ≤ y.nextRemover
  removerRunning : ∀ j < x.nextRemover, y.removerRunning j = true → x.removerRunning j = true
  stop : x.stopRemoveClientsTask = true → y.stopRemoveClientsTask = true
  removerThread : t ≠ .user S.closer → y.clientsRemoverThread = x.clientsRemoverThread ∧
    y.nextRemover = x.nextRemover
  removerEnds : ∀ j, t ≠ .remover j → x.removerRunning j = true → y.removerRunning j = true
  newRemover : ∀ j, x.nextRemover ≤ j → j < y.nextRemover → y.removerRunning j = true
  newClient : ∀ c, x.nextClient ≤ c → c < y.nextClient → (y.client c).running = true

theorem Guar.refl (S : Setting U) (t : Tid U) (x : Shared U) : Guar S t x x where
  clientsMtx _ _ := Iff.rfl
  subscribersMtx _ _ := Iff.rfl
  locked _ _ _ := sameClients_refl x
  lockedSubscribers _ _ _ := rfl
  accepts _ := ⟨rfl, List.Subset.refl _⟩
  keeps _ hc _ := hc
  spares _ _ hc := ⟨hc, id⟩
  made := le_refl _
  later _ _ := .refl _
  released _ _ _ := id
  running _ _ := id
  removers := le_refl _
  removerRunning _ _ := id
  stop := id
  removerThread _ := ⟨rfl, rfl⟩
  removerEnds _ _ := id
  newRemover _ hle hlt := absurd hlt (Nat.not_lt.mpr hle)
  newClient _ hle hlt := absurd hlt (Nat.not_lt.mpr hle)

theorem Guar.live (h : Guar S t x y) {c : ℕ} (hc : c < x.nextClient) (hlive : y.Live c) :
    x.Live c := by
  have hl := h.later c hc
  rcases hlive with hrun | hfd
  · exact .inl (hl.running hrun)
  · rw [hl.sockfd] at hfd
    exact .inr (h.released c hc _ hfd)

/-! ### The operations on the memory -/

/- What an operation has to leave as it was, and what it may do for thread `t`. -/
def Keeps (S : Setting U) (t : Tid U) (x y : Shared U) : Prop := Inv S x → Inv S y ∧ Guar S t x y

theorem keeps_refl : Keeps S t x x := fun h => ⟨h, .refl S t x⟩

theorem keeps_terminate (h : Keeps S t x y) : Keeps S t x { y with terminated := true } := by
  intro hx
  obtain ⟨hy, hg⟩ := h hx
  exact ⟨⟨hy.nodup, hy.listed, hy.made, hy.running, hy.named, hy.sockfd, hy.own, hy.free,
    hy.removers, hy.lastRemover, hy.joined⟩, ⟨hg.clientsMtx, hg.subscribersMtx, hg.locked,
    hg.lockedSubscribers, hg.accepts, hg.keeps, hg.spares, hg.made, hg.later, hg.released,
    hg.running, hg.removers, hg.removerRunning, hg.stop, hg.removerThread, hg.removerEnds,
    hg.newRemover, hg.newClient⟩⟩

theorem keeps_lockClients (hfree : x.clientsMtx = none) : Keeps S t x (x.lockClients t) := by
  intro h
  refine ⟨{ h with free := fun _ hnone => by cases hnone }, { Guar.refl S t x with
    clientsMtx := ?_ }⟩
  intro t' ht'
  simp [Shared.lockClients, hfree, ht'.symm]

theorem keeps_unlockClients (hlock : x.clientsMtx = some t)
    (hall : ¬S.closeFails → ∀ c ∈ x.clients, (x.client c).receiveThread = true) :
    Keeps S t x x.unlockClients := by
  intro h
  refine ⟨{ h with free := fun hno _ => hall hno }, { Guar.refl S t x with
    clientsMtx := ?_ }⟩
  intro t' ht'
  simp [Shared.unlockClients, hlock, ht'.symm]

theorem keeps_lockSubscribers (hfree : x.subscribersMtx = none) :
    Keeps S t x (x.lockSubscribers t) := by
  intro h
  refine ⟨{ h with }, { Guar.refl S t x with subscribersMtx := ?_ }⟩
  intro t' ht'
  simp [Shared.lockSubscribers, hfree, ht'.symm]

theorem keeps_unlockSubscribers (hlock : x.subscribersMtx = some t) :
    Keeps S t x x.unlockSubscribers := by
  intro h
  refine ⟨{ h with }, { Guar.refl S t x with subscribersMtx := ?_ }⟩
  intro t' ht'
  simp [Shared.unlockSubscribers, hlock, ht'.symm]

@[simp] theorem setClient_self (c : ℕ) (k : Client) : (x.setClient c k).client c = k :=
  Function.update_self ..

theorem setClient_of_ne {c d : ℕ} (hd : d ≠ c) (k : Client) :
    (x.setClient c k).client d = x.client d := Function.update_of_ne hd ..

/- A field of the records that the new record leaves as it is. -/
theorem setClient_field {α : Type*} (f : Client → α) {c : ℕ} {k : Client}
    (hk : f k = f (x.client c)) (d : ℕ) : f ((x.setClient c k).client d) = f (x.client d) := by
  by_cases hd : d = c
  · subst hd
    rw [setClient_self, hk]
  · rw [setClient_of_ne hd]

theorem setClient_later {c : ℕ} {k : Client} (hk : Later (x.client c) k) (d : ℕ) :
    Later (x.client d) ((x.setClient c k).client d) := by
  by_cases hd : d = c
  · subst hd
    rw [setClient_self]
    exact hk
  · rw [setClient_of_ne hd]
    exact .refl _

/- A client's own thread may end it; its thread is dropped under `_clientsMtx`,
after it has ended. -/
theorem keeps_setClient {c : ℕ} {k : Client} (hk : Later (x.client c) k)
    (halive : k.alive = (x.client c).alive)
    (hrunning : k.running = (x.client c).running ∨ t = .receiver c)
    (hdrop : k.receiveThread = (x.client c).receiveThread ∨
      (x.clientsMtx = some t ∧ c ∈ x.clients))
    (hended : k.running = true → k.receiveThread = true) : Keeps S t x (x.setClient c k) := by
  intro h
  have hlater := setClient_later hk
  have hfd := setClient_field (x := x) Client.sockfd hk.sockfd
  have hal := setClient_field (x := x) Client.alive halive
  refine ⟨⟨h.nodup, ?_, ?_, ?_, ?_, h.sockfd, ?_, ?_, h.removers,
    h.lastRemover, h.joined⟩, { Guar.refl S t x with
    locked := ?_
    keeps := fun d hd _ => hd
    spares := ?_
    later := fun d _ => hlater d
    released := fun _ _ _ => id
    running := ?_
    newClient := fun _ hle hlt => absurd hlt (Nat.not_lt.mpr hle) }⟩
  · intro d hd
    exact (hal d).trans (h.listed d hd)
  · intro d hd
    exact h.made d ((hal d).symm.trans hd)
  · intro d hd
    refine ⟨(hal d).trans (h.running d ((hlater d).running hd)).1, ?_⟩
    by_cases hdc : d = c
    · subst hdc
      rw [setClient_self] at hd ⊢
      exact hended hd
    · rw [setClient_of_ne hdc] at hd ⊢
      exact (h.running d hd).2
  · intro fd d hd
    obtain ⟨hlt, heq⟩ := h.named fd d hd
    exact ⟨hlt, (hfd d).trans heq⟩
  · intro hno d hd
    exact (congrArg x.descriptors (hfd d)).trans (h.own hno d ((hlater d).receiveThread hd))
  · intro hno hnone d hd
    have hsame : k.receiveThread = (x.client c).receiveThread := by
      rcases hdrop with hsame | ⟨hlock, -⟩
      · exact hsame
      · rw [show x.clientsMtx = none from hnone] at hlock
        cases hlock
    exact (setClient_field (x := x) Client.receiveThread hsame d).trans (h.free hno hnone d hd)
  · intro t' ht' hlock
    have hsame : k.receiveThread = (x.client c).receiveThread := by
      rcases hdrop with hsame | ⟨hlock', -⟩
      · exact hsame
      · rw [hlock] at hlock'
        exact absurd (Option.some_inj.mp hlock') ht'
    refine ⟨rfl, fun d _ => ⟨setClient_field (x := x) Client.receiveThread hsame d, fun hd => ?_⟩⟩
    exact (congrArg x.descriptors (hfd d)).trans hd
  · intro d hd hdalive
    refine ⟨(hal d).trans hdalive, ?_⟩
    rcases hdrop with hsame | ⟨-, hc⟩
    · exact fun hthread => (setClient_field (x := x) Client.receiveThread hsame d).trans hthread
    · rw [setClient_of_ne fun hdc => hd (by rw [hdc]; exact hc)]
      exact id
  · intro d hd hrun
    rcases hrunning with hsame | rfl
    · exact (setClient_field (x := x) Client.running hsame d).trans hrun
    · rw [setClient_of_ne fun hdc => hd (by rw [hdc])]
      exact hrun

theorem closeDescriptor_of_some {fd fd' : ℕ} {a : Holder}
    (h : (x.closeDescriptor (some fd)).descriptors fd' = some a) : x.descriptors fd' = some a := by
  by_cases hfd : fd' = fd
  · subst hfd
    have hnone : (x.closeDescriptor (some fd')).descriptors fd' = none := Function.update_self ..
    rw [hnone] at h
    cases h
  · exact (Function.update_of_ne hfd ..).symm.trans h

/- What another descriptor stands for is still open after `::close`. -/
theorem closeDescriptor_keeps {fd fd' : ℕ} {a : Holder} (hfd : x.descriptors fd ≠ some a)
    (h : x.descriptors fd' = some a) : (x.closeDescriptor (some fd)).descriptors fd' = some a := by
  have hne : fd' ≠ fd := by
    intro heq
    rw [heq] at h
    exact hfd h
  exact (Function.update_of_ne hne ..).trans h

/- A new descriptor has a number that was free. -/
theorem openDescriptor_keeps {fd fd' : ℕ} {a b : Holder} (hfd : x.descriptors fd = none)
    (h : x.descriptors fd' = some b) : Function.update x.descriptors fd (some a) fd' = some b := by
  have hne : fd' ≠ fd := by
    intro heq
    rw [heq, hfd] at h
    cases h
  exact (Function.update_of_ne hne ..).trans h

/- A client's descriptor is closed under `_clientsMtx`, after its thread has been
dropped. -/
theorem keeps_closeDescriptor {fd : ℕ} (hlock : ∀ c, x.descriptors fd = some (.client c) →
    x.clientsMtx = some t ∧ (¬S.closeFails → (x.client c).receiveThread = false)) :
    Keeps S t x (x.closeDescriptor (some fd)) := by
  intro h
  refine ⟨{ h with
    named := fun fd' c hc => h.named fd' c (closeDescriptor_of_some hc)
    sockfd := ?_
    own := ?_ }, { Guar.refl S t x with
    locked := ?_
    keeps := fun d hd _ => hd
    released := fun _ _ _ => closeDescriptor_of_some }⟩
  · intro c hc
    cases hs : x.sockfd with
    | none =>
      rw [show (x.closeDescriptor (some fd)).sockfd = x.sockfd from rfl, hs] at hc
      cases hc
    | some l =>
      rw [show (x.closeDescriptor (some fd)).sockfd = x.sockfd from rfl, hs] at hc
      refine h.sockfd c ?_
      rw [hs]
      exact closeDescriptor_of_some hc
  · intro hno c hc
    refine closeDescriptor_keeps (fun hown => ?_) (h.own hno c hc)
    have hdrop := (hlock c hown).2 hno
    rw [show (x.client c).receiveThread = true from hc] at hdrop
    cases hdrop
  · intro t' ht' hlock'
    refine ⟨rfl, fun c _ => ⟨rfl, closeDescriptor_keeps fun hc => ?_⟩⟩
    have hlock := (hlock c hc).1
    rw [hlock'] at hlock
    exact ht' (Option.some_inj.mp hlock)

/- A new descriptor that is no client's. -/
theorem keeps_openDescriptor {fd k : ℕ} {a : Holder} {l : Option ℕ}
    (hfd : x.descriptors fd = none) (ha : ∀ c, a ≠ .client c)
    (hl : l = x.sockfd ∨ l = some fd) : Keeps S t x
    { x with
      sockfd := l
      starts := k
      descriptors := Function.update x.descriptors fd (some a) } := by
  intro h
  have hback : ∀ fd' c, Function.update x.descriptors fd (some a) fd' = some (.client c) →
      fd' ≠ fd ∧ x.descriptors fd' = some (.client c) := by
    intro fd' c hc
    by_cases hfd' : fd' = fd
    · subst hfd'
      rw [Function.update_self] at hc
      exact absurd (Option.some_inj.mp hc) (ha c)
    · rw [Function.update_of_ne hfd'] at hc
      exact ⟨hfd', hc⟩
  refine ⟨{ h with
    named := fun fd' c hc => h.named fd' c (hback fd' c hc).2
    sockfd := ?_
    own := fun hno c hc => openDescriptor_keeps hfd (h.own hno c hc) }, { Guar.refl S t x with
    locked := fun _ _ _ => ⟨rfl, fun _ _ => ⟨rfl, openDescriptor_keeps hfd⟩⟩
    keeps := fun d hd _ => hd
    released := fun c _ fd' hc => (hback fd' c hc).2 }⟩
  intro c hc
  obtain ⟨fd', hfd', hc⟩ := Option.bind_eq_some_iff.mp hc
  obtain ⟨hne, hsome⟩ := hback fd' c hc
  rcases hl with rfl | rfl
  · exact h.sockfd c (Option.bind_eq_some_iff.mpr ⟨fd', hfd', hsome⟩)
  · exact hne (Option.some_inj.mp hfd').symm

theorem keeps_noServer : Keeps S t x x.noServer := by
  intro h
  refine ⟨{ h with sockfd := fun c hc => by cases hc }, { Guar.refl S t x with
    keeps := fun d hd _ => hd }⟩

theorem addClient_new (fd : ℕ) (ip : Bytes) :
    (x.addClient fd ip).client x.nextClient = ⟨fd, ip, true, true, true, true⟩ := setClient_self ..

theorem addClient_old {fd : ℕ} {ip : Bytes} {c : ℕ} (hc : c ≠ x.nextClient) :
    (x.addClient fd ip).client c = x.client c := setClient_of_ne hc _

theorem addClient_lt {fd : ℕ} {ip : Bytes} {c : ℕ} (hc : c < x.nextClient) :
    (x.addClient fd ip).client c = x.client c := addClient_old (Nat.ne_of_lt hc)

theorem addClient_keeps {fd fd' c : ℕ} {ip : Bytes} (hfd : x.descriptors fd = none)
    (hc : x.descriptors fd' = some (.client c)) :
    (x.addClient fd ip).descriptors fd' = some (.client c) := openDescriptor_keeps hfd hc

theorem addClient_descriptors {fd fd' c : ℕ} {ip : Bytes}
    (hc : (x.addClient fd ip).descriptors fd' = some (.client c)) :
    (fd' = fd ∧ c = x.nextClient) ∨ x.descriptors fd' = some (.client c) := by
  by_cases hne : fd' = fd
  · subst hne
    have hnew : (x.addClient fd' ip).descriptors fd' = some (.client x.nextClient) :=
      Function.update_self ..
    rw [hnew] at hc
    cases hc
    exact .inl ⟨rfl, rfl⟩
  · exact .inr ((Function.update_of_ne hne ..).symm.trans hc)

theorem addClient_inv {l fd : ℕ} {ip : Bytes} (hl : x.sockfd = some l)
    (hopen : x.descriptors l ≠ none) (hfd : x.descriptors fd = none) (h : Inv S x) :
    Inv S (x.addClient fd ip) := by
  refine ⟨h.nodup, ?_, ?_, ?_, ?_, ?_, ?_, ?_, h.removers, h.lastRemover, h.joined⟩
  · intro c hc
    rw [addClient_lt (h.lt hc)]
    exact h.listed c hc
  · intro c hc
    by_cases hnc : c = x.nextClient
    · exact hnc ▸ Nat.lt_succ_self _
    · rw [addClient_old hnc] at hc
      exact Nat.lt_succ_of_lt (h.made c hc)
  · intro c hc
    by_cases hnc : c = x.nextClient
    · rw [hnc, addClient_new]
      exact ⟨rfl, rfl⟩
    · rw [addClient_old hnc] at hc ⊢
      exact h.running c hc
  · intro fd' c hc
    rcases addClient_descriptors hc with ⟨rfl, rfl⟩ | hc
    · rw [addClient_new]
      exact ⟨Nat.lt_succ_self _, rfl⟩
    · obtain ⟨hlt, hsock⟩ := h.named fd' c hc
      rw [addClient_lt hlt]
      exact ⟨Nat.lt_succ_of_lt hlt, hsock⟩
  · intro c hc
    obtain ⟨l', hl', hc⟩ := Option.bind_eq_some_iff.mp hc
    have hsame : l' = l := Option.some_inj.mp (hl'.symm.trans hl)
    subst hsame
    rcases addClient_descriptors hc with ⟨rfl, -⟩ | hc
    · exact hopen hfd
    · exact h.sockfd c (Option.bind_eq_some_iff.mpr ⟨l', hl, hc⟩)
  · intro hno c hc
    by_cases hnc : c = x.nextClient
    · rw [hnc, addClient_new]
      exact Function.update_self ..
    · rw [addClient_old hnc] at hc ⊢
      exact addClient_keeps hfd (h.own hno c hc)
  · intro hno hnone c hc
    rw [addClient_lt (h.lt hc)]
    exact h.free hno hnone c hc

/- The thread that accepts makes a client, which is in no list yet. -/
theorem keeps_addClient {u : U} {l fd : ℕ} {ip : Bytes} (hu : u = S.acceptor)
    (hl : x.sockfd = some l) (hopen : x.descriptors l ≠ none) (hfd : x.descriptors fd = none) :
    Keeps S (.user u) x (x.addClient fd ip) := by
  intro h
  refine ⟨addClient_inv hl hopen hfd h, { Guar.refl S (.user u) x with
    locked := ?_
    accepts := fun hne => absurd (by rw [hu]) hne
    keeps := fun d hd _ => hd
    spares := ?_
    made := Nat.le_succ _
    later := ?_
    released := ?_
    running := ?_
    newClient := ?_ }⟩
  · intro t' _ _
    refine ⟨rfl, fun c hc => ?_⟩
    rw [addClient_lt (h.lt hc)]
    exact ⟨rfl, addClient_keeps hfd⟩
  · intro c _ hc
    by_cases hnc : c = x.nextClient
    · rw [hnc, addClient_new]
      exact ⟨rfl, fun _ => rfl⟩
    · rw [addClient_old hnc]
      exact ⟨hc, id⟩
  · intro c hc
    rw [addClient_lt hc]
    exact .refl _
  · intro c hc fd' hc'
    rcases addClient_descriptors hc' with ⟨-, rfl⟩ | hc'
    · exact absurd hc (Nat.lt_irrefl _)
    · exact hc'
  · intro c _ hc
    by_cases hnc : c = x.nextClient
    · rw [hnc, addClient_new]
    · rw [addClient_old hnc]
      exact hc
  · intro c hle hlt
    have hnc : c = x.nextClient := Nat.le_antisymm (Nat.le_of_lt_succ hlt) hle
    rw [hnc, addClient_new]

/- It joins the list while nobody holds `_clientsMtx`. -/
theorem keeps_push {u : U} {c : ℕ} (hu : u = S.acceptor) (hfree : x.clientsMtx = none)
    (halive : (x.client c).alive = true) (hc : c ∉ x.clients)
    (hthread : ¬S.closeFails → (x.client c).receiveThread = true) :
    Keeps S (.user u) x { x with clients := x.clients ++ [c] } := by
  intro h
  refine ⟨{ h with
    nodup := ?_
    listed := ?_
    free := ?_ }, { Guar.refl S (.user u) x with
    locked := ?_
    accepts := fun hne => absurd (by rw [hu]) hne
    keeps := fun d hd _ => List.mem_append_left _ hd
    spares := ?_ }⟩
  · refine List.nodup_append.mpr ⟨h.nodup, List.nodup_singleton c, ?_⟩
    intro d hd d' hd' hdd
    rw [hdd, List.mem_singleton.mp hd'] at hd
    exact hc hd
  · intro d hd
    rcases List.mem_append.mp hd with hd | hd
    · exact h.listed d hd
    · rw [List.mem_singleton.mp hd]
      exact halive
  · intro hno _ d hd
    rcases List.mem_append.mp hd with hd | hd
    · exact h.free hno hfree d hd
    · rw [List.mem_singleton.mp hd]
      exact hthread hno
  · intro t' _ hlock
    rw [hfree] at hlock
    cases hlock
  · intro d _ hd
    exact ⟨hd, id⟩

theorem removeClient_old {c d : ℕ} (hd : d ≠ c) : (x.removeClient c).client d = x.client d :=
  setClient_of_ne hd _

theorem removeClient_later (x : Shared U) (c d : ℕ) :
    Later (x.client d) ((x.removeClient c).client d) := by
  have hsame : Later (x.client c) { x.client c with alive := false } :=
    ⟨rfl, rfl, id, id, id, nofun⟩
  exact setClient_later hsame d

theorem removeClient_live {c d : ℕ} (hd : (x.removeClient c).Live d) : x.Live d := by
  have hlater := removeClient_later x c d
  rcases hd with hrun | hfd
  · exact .inl (hlater.running hrun)
  · rw [hlater.sockfd] at hfd
    exact .inr hfd

theorem removeClient_inv {c : ℕ} (hlock : x.clientsMtx = some t) (hc : c ∈ x.clients)
    (hdead : ¬x.Live c) (h : Inv S x) : Inv S (x.removeClient c) := by
  have hlater := removeClient_later x c
  refine ⟨h.nodup.erase c, ?_, ?_, ?_, ?_, h.sockfd, ?_, ?_, h.removers, h.lastRemover, h.joined⟩
  · intro d hd
    obtain ⟨hne, hd⟩ := h.nodup.mem_erase_iff.mp hd
    rw [removeClient_old hne]
    exact h.listed d hd
  · intro d hd
    by_cases hdc : d = c
    · subst hdc
      exact h.lt hc
    · rw [removeClient_old hdc] at hd
      exact h.made d hd
  · intro d hd
    have hdc : d ≠ c := by
      rintro rfl
      exact hdead (removeClient_live (.inl hd))
    rw [removeClient_old hdc] at hd ⊢
    exact h.running d hd
  · intro fd d hd
    obtain ⟨hlt, hsock⟩ := h.named fd d hd
    exact ⟨hlt, (hlater d).sockfd.trans hsock⟩
  · intro hno d hd
    rw [(hlater d).sockfd]
    exact h.own hno d ((hlater d).receiveThread hd)
  · intro hno hnone
    rw [show x.clientsMtx = none from hnone] at hlock
    cases hlock

/- Who deletes a client holds `_clientsMtx`, and the client has nothing left. -/
theorem keeps_removeClient {c : ℕ} (hlock : x.clientsMtx = some t) (hc : c ∈ x.clients)
    (hdead : ¬x.Live c) : Keeps S t x (x.removeClient c) := by
  intro h
  refine ⟨removeClient_inv hlock hc hdead h, { Guar.refl S t x with
    locked := ?_
    accepts := fun _ => ⟨rfl, List.erase_subset⟩
    keeps := ?_
    spares := ?_
    later := fun d _ => removeClient_later x c d
    released := fun _ _ _ => id
    running := ?_
    newClient := fun _ hle hlt => absurd hlt (Nat.not_lt.mpr hle) }⟩
  · intro t' ht' hlock'
    rw [hlock'] at hlock
    exact absurd (Option.some_inj.mp hlock) ht'
  · intro d hd hd'
    refine h.nodup.mem_erase_iff.mpr ⟨?_, hd⟩
    rintro rfl
    exact hdead (removeClient_live hd')
  · intro d hd halive
    have hdc : d ≠ c := by
      rintro rfl
      exact hd hc
    rw [removeClient_old hdc]
    exact ⟨halive, id⟩
  · intro d _ hrun
    by_cases hdc : d = c
    · subst hdc
      exact absurd (.inl hrun) hdead
    · rw [removeClient_old hdc]
      exact hrun

theorem keeps_clear (hlock : x.clientsMtx = some t) (hdead : ∀ c ∈ x.clients, ¬x.Live c) :
    Keeps S t x { x with clients := [] } := by
  intro h
  refine ⟨{ h with
    nodup := List.nodup_nil
    listed := fun c hc => by cases hc
    free := fun _ _ c hc => by cases hc }, { Guar.refl S t x with
    locked := ?_
    accepts := fun _ => ⟨rfl, List.nil_subset _⟩
    keeps := fun c hc hlive => absurd hlive (hdead c hc)
    spares := fun _ _ hc => ⟨hc, id⟩ }⟩
  intro t' ht' hlock'
  rw [hlock'] at hlock
  exact absurd (Option.some_inj.mp hlock) ht'

theorem keeps_subscribe {o : Observer} (hfree : x.subscribersMtx = none) :
    Keeps S t x { x with subscribers := x.subscribers ++ [o] } := by
  intro h
  refine ⟨{ h with }, { Guar.refl S t x with lockedSubscribers := ?_ }⟩
  intro t' _ hlock
  rw [hfree] at hlock
  cases hlock

theorem keeps_addRemover {u : U} (hu : u = S.closer) (remove : Bool) :
    Keeps S (.user u) x (x.addRemover remove) := by
  intro h
  cases remove with
  | false => exact ⟨h, .refl S _ x⟩
  | true =>
    have hself : (x.addRemover true).removerRunning x.nextRemover = true := Function.update_self ..
    have hrest : ∀ j, j ≠ x.nextRemover →
        (x.addRemover true).removerRunning j = x.removerRunning j :=
      fun j hj => Function.update_of_ne hj ..
    refine ⟨{ h with
      removers := ?_
      lastRemover := fun j hj => by injection hj with hj; rw [← hj]; rfl
      joined := fun hnone => by cases hnone }, { Guar.refl S (.user u) x with
      removers := Nat.le_succ _
      removerRunning := ?_
      removerThread := fun hne => absurd (by rw [hu]) hne
      removerEnds := ?_
      newRemover := ?_ }⟩
    · intro j hj
      by_cases hj' : j = x.nextRemover
      · exact hj' ▸ Nat.lt_succ_self _
      · exact Nat.lt_succ_of_lt (h.removers j ((hrest j hj').symm.trans hj))
    · intro j hj hrun
      exact (hrest j (Nat.ne_of_lt hj)).symm.trans hrun
    · intro j _ hrun
      exact (hrest j (Nat.ne_of_lt (h.removers j hrun))).trans hrun
    · intro j hle hlt
      have hj : j = x.nextRemover := Nat.le_antisymm (Nat.le_of_lt_succ hlt) hle
      exact hj ▸ hself

theorem keeps_endRemover (j : ℕ) : Keeps S (.remover j) x (x.endRemover j) := by
  intro h
  have hself : (x.endRemover j).removerRunning j = false := Function.update_self ..
  have hrest : ∀ j', j' ≠ j → (x.endRemover j).removerRunning j' = x.removerRunning j' :=
    fun j' hj' => Function.update_of_ne hj' ..
  have hback : ∀ j', (x.endRemover j).removerRunning j' = true → x.removerRunning j' = true := by
    intro j' hj'
    by_cases hne : j' = j
    · rw [hne, hself] at hj'
      cases hj'
    · exact (hrest j' hne).symm.trans hj'
  refine ⟨{ h with
    removers := fun j' hj' => h.removers j' (hback j' hj')
    joined := ?_ }, { Guar.refl S (.remover j) x with
    removerRunning := fun j' _ => hback j'
    removerEnds := ?_
    newRemover := fun _ hle hlt => absurd hlt (Nat.not_lt.mpr hle) }⟩
  · intro hnone
    refine ⟨(h.joined hnone).1, fun j' hj' => Bool.eq_false_of_not_eq_true fun hrun => ?_⟩
    have hended := (h.joined hnone).2 j' hj'
    rw [hback j' hrun] at hended
    cases hended
  · intro j' hj' hrun
    exact (hrest j' fun hne => hj' (by rw [hne])).trans hrun

theorem keeps_stop : Keeps S t x { x with stopRemoveClientsTask := true } := by
  intro h
  exact ⟨{ h with joined := fun hnone => ⟨fun _ => rfl, (h.joined hnone).2⟩ },
    { Guar.refl S t x with stop := fun _ => rfl }⟩

/- The thread that closes has joined the last remover. -/
theorem keeps_forget {u : U} {j : ℕ} (hu : u = S.closer) (hlast : x.clientsRemoverThread = some j)
    (hstop : x.stopRemoveClientsTask = true) (hended : x.removerRunning j = false) :
    Keeps S (.user u) x { x with clientsRemoverThread := none } := by
  intro h
  refine ⟨{ h with
    lastRemover := fun _ hj => by cases hj
    joined := ?_ }, { Guar.refl S (.user u) x with
    removerThread := fun hne => absurd (by rw [hu]) hne }⟩
  intro _
  refine ⟨fun _ => hstop, fun j' hj' => ?_⟩
  have hsame : j' = j := Nat.succ_injective (hj'.trans (h.lastRemover j hlast).symm)
  rw [hsame]
  exact hended

/-! ### What a thread knows -/

def UserPc.locked : UserPc → Bool
  | .sendAll _ _ | .sendOne _ _ _ | .printing _ | .unlock _ _ | .closing _ | .join _ _
  | .closeFd _ _ | .unlockClose => true
  | _ => false

def RemoverPc.locked : RemoverPc → Bool
  | .scan _ | .join _ | .closeFd _ | .delete _ => true
  | _ => false

def ReceiverPc.locked : ReceiverPc → Bool
  | .dispatch _ _ _ | .handler _ _ _ _ => true
  | _ => false

/- The thread is where it holds `_clientsMtx`, or `_subscribersMtx`. -/
def inClients : ∀ t : Tid U, Pc t → Bool
  | .user _, l => UserPc.locked l
  | .remover _, l => RemoverPc.locked l
  | .receiver _, _ => false
  | .other, _ => false

def inSubscribers : ∀ t : Tid U, Pc t → Bool
  | .user _, _ => false
  | .remover _, _ => false
  | .receiver _, l => ReceiverPc.locked l
  | .other, _ => false

/- The client that is accepted and not in the list yet. -/
def UserPc.pushing : UserPc → Option ℕ
  | .push c => some c
  | _ => none

def pushing : ∀ t : Tid U, Pc t → Option ℕ
  | .user _, l => UserPc.pushing l
  | .remover _, _ => none
  | .receiver _, _ => none
  | .other, _ => none

/- The clients in the list that the thread may have closed. -/
def UserPc.Handled : UserPc → ℕ → Prop
  | .closing rest, d => d ∉ rest
  | .join c rest, d => d ∉ c :: rest
  | .closeFd _ rest, d => d ∉ rest
  | _, _ => False

def RemoverPc.Handled : RemoverPc → ℕ → Prop
  | .closeFd c, d => d = c
  | .delete c, d => d = c
  | _, _ => False

def Handled : ∀ t : Tid U, Pc t → ℕ → Prop
  | .user _, l => UserPc.Handled l
  | .remover _, l => RemoverPc.Handled l
  | .receiver _, _ => fun _ => False
  | .other, _ => fun _ => False

/- The clients before `rest` have neither a thread nor a descriptor. -/
def Released (x : Shared U) (rest : List ℕ) : Prop :=
  rest <:+ x.clients ∧ ∀ d ∈ x.clients, d ∉ rest → (x.client d).receiveThread = false ∧
    x.descriptors (x.client d).sockfd ≠ some (.client d)

/- Client `c` has been disconnected and joined; its descriptor is still open. -/
def Joined (S : Setting U) (x : Shared U) (c : ℕ) : Prop :=
  (x.client c).receiveThread = false ∧
    (¬S.closeFails → x.descriptors (x.client c).sockfd = some (.client c))

/- The calls that take `_clientsMtx` and come back with a result. -/
def Call.locks : Call → Bool
  | .sendToAllClients _ | .sendToClient _ _ | .printClients | .close => true
  | _ => false

def UserHolds (S : Setting U) (u : U) (x : Shared U) : UserPc → Prop
  | .idle => True
  | .call op => S.may u op
  | .starting _ => u = S.closer
  | .push c => u = S.acceptor ∧ c < x.nextClient ∧ (x.client c).alive = true ∧ c ∉ x.clients ∧
      (¬S.closeFails → (x.client c).receiveThread = true)
  | .sendAll _ rest => rest ⊆ x.clients
  | .sendOne _ _ c => c ∈ x.clients
  | .printing rest => rest ⊆ x.clients
  | .unlock op _ => op.locks = true ∧ (op = .close → S.closeFails)
  | .joinRemover j => u = S.closer ∧ x.clientsRemoverThread = some j ∧
      x.stopRemoveClientsTask = true
  | .lockClose => u = S.closer
  | .closing rest => u = S.closer ∧ Released x rest
  | .join c rest => u = S.closer ∧ Released x (c :: rest) ∧ (x.client c).isConnected = false
  | .closeFd c rest => u = S.closer ∧ Released x (c :: rest) ∧ Joined S x c
  | .unlockClose => u = S.closer ∧ x.clients = []
  | .closeServer => u = S.closer ∧ (S.closer = S.acceptor → x.clients = [])
  | .finish _ => u = S.closer ∧ (S.closer = S.acceptor → x.clients = [])

def RemoverHolds (S : Setting U) (j : ℕ) (x : Shared U) : RemoverPc → Prop
  | .check => True
  | .lock => True
  | .scan rest => rest ⊆ x.clients
  | .join c => c ∈ x.clients ∧ (x.client c).isConnected = false
  | .closeFd c => c ∈ x.clients ∧ Joined S x c ∧ (x.client c).isConnected = false
  | .delete c => c ∈ x.clients ∧ (x.client c).receiveThread = false ∧
      x.descriptors (x.client c).sockfd ≠ some (.client c) ∧ (x.client c).isConnected = false
  | .sleep => True
  | .done => j < x.nextRemover ∧ x.removerRunning j = false

def ReceiverHolds (c : ℕ) (x : Shared U) : ReceiverPc → Prop
  | .check => True
  | .wait => c < x.nextClient
  | .recv => c < x.nextClient
  | .publish e _ => c < x.nextClient ∧ (e = .disconnected → (x.client c).isConnected = false)
  | .dispatch e _ _ => c < x.nextClient ∧ (e = .disconnected → (x.client c).isConnected = false)
  | .handler e _ _ _ => c < x.nextClient ∧ (e = .disconnected → (x.client c).isConnected = false)
  | .ret => c < x.nextClient ∧ (x.client c).isConnected = false
  | .done => c < x.nextClient ∧ (x.client c).running = false

def Knows (S : Setting U) : ∀ t : Tid U, Shared U → Pc t → Prop
  | .user u => UserHolds S u
  | .remover j => RemoverHolds S j
  | .receiver c => ReceiverHolds c
  | .other => fun _ _ => True

/- A thread that was not created is at its beginning, one that has ended is done. -/
def ThreadState : ∀ t : Tid U, Shared U → Pc t → Prop
  | .remover j, x, l => (x.nextRemover ≤ j → l = .check) ∧
      (j < x.nextRemover → x.removerRunning j = false → l = .done)
  | .receiver c, x, l => (x.nextClient ≤ c → l = .check) ∧
      (c < x.nextClient → (x.client c).running = false → l = .done)
  | .user _, _, _ => True
  | .other, _, _ => True

structure Holds (S : Setting U) (t : Tid U) (l : Pc t) (x : Shared U) : Prop where
  clientsMtx : x.clientsMtx = some t ↔ inClients t l = true
  subscribersMtx : x.subscribersMtx = some t ↔ inSubscribers t l = true
  pending : t = .user S.acceptor → ∀ c, x.Live c → c ∈ x.clients ∨ pushing t l = some c
  thread : ¬S.closeFails → inClients t l = true → ∀ c ∈ x.clients, ¬Handled t l c →
    (x.client c).receiveThread = true
  knows : Knows S t x l
  threadState : ThreadState t x l

/-! ### One thread's steps and another's knowledge -/

theorem Released.mono {rest : List ℕ} (hx : Inv S x) (hg : Guar S t x y)
    (hclients : y.clients = x.clients) (h : Released x rest) : Released y rest := by
  refine ⟨hclients ▸ h.1, ?_⟩
  intro d hd hrest
  rw [hclients] at hd
  obtain ⟨hthread, hfd⟩ := h.2 d hd hrest
  have hl := hg.later d (hx.lt hd)
  refine ⟨Bool.eq_false_of_not_eq_true fun hy => ?_, ?_⟩
  · rw [hl.receiveThread hy] at hthread
    cases hthread
  · rw [hl.sockfd]
    exact fun hy => hfd (hg.released d (hx.lt hd) _ hy)

theorem isConnected_stable {c : ℕ} (hg : Guar S t x y) (hc : c < x.nextClient)
    (h : (x.client c).isConnected = false) : (y.client c).isConnected = false := by
  refine Bool.eq_false_of_not_eq_true fun hy => ?_
  rw [(hg.later c hc).isConnected hy] at h
  cases h

theorem receiveThread_stable {c : ℕ} (hg : Guar S t x y) (hc : c < x.nextClient)
    (h : (x.client c).receiveThread = false) : (y.client c).receiveThread = false := by
  refine Bool.eq_false_of_not_eq_true fun hy => ?_
  rw [(hg.later c hc).receiveThread hy] at h
  cases h

theorem Joined.mono {c : ℕ} (hg : Guar S t x y) (hc : c ∈ x.clients) (hlt : c < x.nextClient)
    (hsame : SameClients x y) (h : Joined S x c) : Joined S y c :=
  ⟨receiveThread_stable hg hlt h.1, fun hno => (hsame.2 c hc).2 (h.2 hno)⟩

theorem userHolds_stable {u : U} {l : UserPc} (ht : Tid.user u ≠ t) (hx : Inv S x)
    (hg : Guar S t x y) (hlock : x.clientsMtx = some (.user u) ↔ UserPc.locked l = true)
    (h : UserHolds S u x l) : UserHolds S u y l := by
  have hsame : UserPc.locked l = true → SameClients x y :=
    fun hl => hg.locked _ ht (hlock.mpr hl)
  cases l with
  | idle => trivial
  | call op => exact h
  | starting => exact h
  | push c =>
    obtain ⟨rfl, hlt, halive, hc, hthread⟩ := h
    obtain ⟨-, hsub⟩ := hg.accepts ht.symm
    obtain ⟨halive', hthread'⟩ := hg.spares c hc halive
    exact ⟨rfl, Nat.lt_of_lt_of_le hlt hg.made, halive', fun hy => hc (hsub hy),
      fun hno => hthread' (hthread hno)⟩
  | sendAll | printing =>
    change _ ⊆ y.clients
    rw [(hsame rfl).1]
    exact h
  | sendOne clientIP msg c =>
    change c ∈ y.clients
    rw [(hsame rfl).1]
    exact h
  | unlock op r => exact h
  | joinRemover j =>
    obtain ⟨hu, hlast, hstop⟩ := h
    exact ⟨hu, (hg.removerThread (by rw [← hu]; exact ht.symm)).1.trans hlast, hg.stop hstop⟩
  | lockClose => exact h
  | closing rest => exact ⟨h.1, h.2.mono hx hg (hsame rfl).1⟩
  | join c rest =>
    obtain ⟨hu, hrel, hoff⟩ := h
    have hc : c ∈ x.clients := hrel.1.subset (List.mem_cons_self ..)
    exact ⟨hu, hrel.mono hx hg (hsame rfl).1, isConnected_stable hg (hx.lt hc) hoff⟩
  | closeFd c rest =>
    obtain ⟨hu, hrel, hjoined⟩ := h
    have hc : c ∈ x.clients := hrel.1.subset (List.mem_cons_self ..)
    exact ⟨hu, hrel.mono hx hg (hsame rfl).1, hjoined.mono hg hc (hx.lt hc) (hsame rfl)⟩
  | unlockClose => exact ⟨h.1, (hsame rfl).1.trans h.2⟩
  | closeServer | finish =>
    refine ⟨h.1, fun hca => ?_⟩
    have hsub := (hg.accepts (by rw [← hca, ← h.1]; exact ht.symm)).2
    rw [h.2 hca] at hsub
    exact List.subset_nil.mp hsub

theorem removerHolds_stable {j : ℕ} {l : RemoverPc} (ht : Tid.remover j ≠ t) (hx : Inv S x)
    (hg : Guar S t x y) (hlock : x.clientsMtx = some (.remover j) ↔ RemoverPc.locked l = true)
    (h : RemoverHolds S j x l) : RemoverHolds S j y l := by
  have hsame : RemoverPc.locked l = true → SameClients x y :=
    fun hl => hg.locked _ ht (hlock.mpr hl)
  cases l with
  | check => trivial
  | lock => trivial
  | sleep => trivial
  | scan rest =>
    change rest ⊆ y.clients
    rw [(hsame rfl).1]
    exact h
  | join c => exact ⟨(hsame rfl).1.symm ▸ h.1, isConnected_stable hg (hx.lt h.1) h.2⟩
  | closeFd c =>
    obtain ⟨hc, hjoined, hoff⟩ := h
    exact ⟨(hsame rfl).1.symm ▸ hc, hjoined.mono hg hc (hx.lt hc) (hsame rfl),
      isConnected_stable hg (hx.lt hc) hoff⟩
  | delete c =>
    obtain ⟨hc, hthread, hfd, hoff⟩ := h
    refine ⟨(hsame rfl).1.symm ▸ hc, receiveThread_stable hg (hx.lt hc) hthread, ?_,
      isConnected_stable hg (hx.lt hc) hoff⟩
    rw [(hg.later c (hx.lt hc)).sockfd]
    exact fun hy => hfd (hg.released c (hx.lt hc) _ hy)
  | done =>
    refine ⟨Nat.lt_of_lt_of_le h.1 hg.removers, Bool.eq_false_of_not_eq_true fun hy => ?_⟩
    have hrun := hg.removerRunning j h.1 hy
    rw [h.2] at hrun
    cases hrun

theorem receiverHolds_stable {c : ℕ} {l : ReceiverPc} (hg : Guar S t x y)
    (h : ReceiverHolds c x l) : ReceiverHolds c y l := by
  have hlt : c < x.nextClient → c < y.nextClient := fun hc => Nat.lt_of_lt_of_le hc hg.made
  cases l with
  | check => trivial
  | wait => exact hlt h
  | recv => exact hlt h
  | publish | dispatch | handler =>
    exact ⟨hlt h.1, fun he => isConnected_stable hg h.1 (h.2 he)⟩
  | ret => exact ⟨hlt h.1, isConnected_stable hg h.1 h.2⟩
  | done =>
    refine ⟨hlt h.1, Bool.eq_false_of_not_eq_true fun hy => ?_⟩
    have hrun := (hg.later c h.1).running hy
    rw [h.2] at hrun
    cases hrun

theorem removerState_stable {j : ℕ} {l : RemoverPc} (ht : Tid.remover j ≠ t) (hg : Guar S t x y)
    (h : ThreadState (.remover j) x l) : ThreadState (.remover j) y l := by
  refine ⟨fun hle => h.1 (Nat.le_trans hg.removers hle), fun hlt hended => ?_⟩
  by_cases hold : j < x.nextRemover
  · refine h.2 hold (Bool.eq_false_of_not_eq_true fun hrun => ?_)
    rw [hg.removerEnds j ht.symm hrun] at hended
    cases hended
  · rw [hg.newRemover j (Nat.le_of_not_lt hold) hlt] at hended
    cases hended

theorem receiverState_stable {c : ℕ} {l : ReceiverPc} (ht : Tid.receiver c ≠ t)
    (hg : Guar S t x y) (h : ThreadState (.receiver c) x l) : ThreadState (.receiver c) y l := by
  refine ⟨fun hle => h.1 (Nat.le_trans hg.made hle), fun hlt hended => ?_⟩
  by_cases hold : c < x.nextClient
  · refine h.2 hold (Bool.eq_false_of_not_eq_true fun hrun => ?_)
    rw [hg.running c ht.symm hrun] at hended
    cases hended
  · rw [hg.newClient c (Nat.le_of_not_lt hold) hlt] at hended
    cases hended

theorem holds_stable {t' : Tid U} {l : Pc t'} (ht : t ≠ t') (hx : Inv S x) (hy : Inv S y)
    (hg : Guar S t x y) (h : Holds S t' l x) : Holds S t' l y where
  clientsMtx := (hg.clientsMtx t' ht.symm).trans h.clientsMtx
  subscribersMtx := (hg.subscribersMtx t' ht.symm).trans h.subscribersMtx
  pending := by
    intro hacc c hlive
    have hnext := (hg.accepts (by rw [← hacc]; exact ht)).1
    have hlt := hy.lt_of_live hlive
    rw [hnext] at hlt
    rcases h.pending hacc c (hg.live hlt hlive) with hc | hc
    · exact .inl (hg.keeps c hc hlive)
    · exact .inr hc
  thread := by
    intro hno hin c hc hhandled
    obtain ⟨hclients, hsame⟩ := hg.locked t' ht.symm (h.clientsMtx.mpr hin)
    rw [hclients] at hc
    exact (hsame c hc).1.trans (h.thread hno hin c hc hhandled)
  knows := by
    cases t' with
    | user u => exact userHolds_stable ht.symm hx hg h.clientsMtx h.knows
    | remover j => exact removerHolds_stable ht.symm hx hg h.clientsMtx h.knows
    | receiver c => exact receiverHolds_stable hg h.knows
    | other => trivial
  threadState := by
    cases t' with
    | remover j => exact removerState_stable ht.symm hg h.threadState
    | receiver c => exact receiverState_stable ht.symm hg h.threadState
    | user u => trivial
    | other => trivial

/- Whoever joins a thread has waited for its end. -/
theorem not_running_of_joined (hx : Inv S x) {c : ℕ}
    (hjoin : (x.client c).receiveThread = true → (x.client c).running = false) :
    (x.client c).running = false := by
  refine Bool.eq_false_of_not_eq_true fun hrun => ?_
  rw [hjoin (hx.running c hrun).2] at hrun
  cases hrun

theorem disconnect_receiveThread (x : Shared U) (c d : ℕ) :
    ((x.disconnect c).client d).receiveThread = (x.client d).receiveThread :=
  setClient_field (k := { x.client c with isConnected := false }) Client.receiveThread rfl d

theorem keeps_disconnect {c : ℕ} : Keeps S t x (x.disconnect c) := by
  intro hx
  exact keeps_setClient ⟨rfl, rfl, fun hc => (by cases hc), id, id, id⟩ rfl (.inl rfl) (.inl rfl)
    (fun hrun => (hx.running c hrun).2) hx

theorem keeps_dropThread {c : ℕ} (hlock : x.clientsMtx = some t) (hc : c ∈ x.clients)
    (hjoin : (x.client c).receiveThread = true → (x.client c).running = false) :
    Keeps S t x (x.dropThread c) := by
  intro hx
  refine keeps_setClient ⟨rfl, rfl, id, fun hd => (by cases hd), id, id⟩ rfl (.inl rfl)
    (.inr ⟨hlock, hc⟩) (fun hrun => ?_) hx
  rw [not_running_of_joined hx hjoin] at hrun
  cases hrun

theorem keeps_closeClient {c : ℕ} (hlock : x.clientsMtx = some t) (h : Joined S x c) :
    Keeps S t x (x.closeDescriptor (some (x.client c).sockfd)) := by
  refine keeps_closeDescriptor fun d hd => ⟨hlock, fun hno => ?_⟩
  have hsame : c = d := by
    have hown := h.2 hno
    rw [hd] at hown
    injection Option.some_inj.mp hown with hdc
    exact hdc.symm
  exact hsame ▸ h.1

/- After `::close`, no client's descriptor has this number. -/
theorem closeDescriptor_ne (x : Shared U) (fd : ℕ) (a : Holder) :
    (x.closeDescriptor (some fd)).descriptors fd ≠ some a := by
  have hnone : (x.closeDescriptor (some fd)).descriptors fd = none := Function.update_self ..
  rw [hnone]
  exact (Option.some_ne_none a).symm

/- An open descriptor is closed without an error, if `::close` does not fail. -/
theorem closeFails_of_failed {c : ℕ} (h : Joined S x c)
    (hfailed : x.held (some (x.client c).sockfd) = none ∨ S.closeFails) : S.closeFails := by
  rcases hfailed with hnone | hfails
  · by_contra hno
    have hown := h.2 hno
    change x.descriptors (x.client c).sockfd = none at hnone
    rw [hnone] at hown
    cases hown
  · exact hfails

/-! ### The steps of each thread -/

def Ok (S : Setting U) (t : Tid U) (x : Shared U) (m : Pc t) (y : Shared U) : Prop :=
  Inv S y ∧ Holds S t m y ∧ Guar S t x y

theorem receiver_ok {c : ℕ} {l m : ReceiverPc} {e : Event} (hx : Inv S x)
    (h : Holds S (.receiver c) l x) (hrun : (x.client c).running = true)
    (he : ReceiverStep c x l e y m) : Ok S (.receiver c) x m y := by
  have hlt : c < x.nextClient := hx.made c (hx.running c hrun).1
  have hout : x.clientsMtx ≠ some (.receiver c) := fun hc => by cases h.clientsMtx.mp hc
  have hsub := h.subscribersMtx
  have hknows : ReceiverHolds c x l := h.knows
  have hok : Keeps S (.receiver c) x y → y.clientsMtx = x.clientsMtx →
      (y.subscribersMtx = some (.receiver c) ↔ ReceiverPc.locked m = true) →
      (Guar S (.receiver c) x y → ReceiverHolds c y m) →
      ((y.client c).running = true ∨ m = .done) → Ok S (.receiver c) x m y := by
    intro hkeeps hmtx hsub' hk hstate
    obtain ⟨hy, hg⟩ := hkeeps hx
    have hlt' : c < y.nextClient := Nat.lt_of_lt_of_le hlt hg.made
    refine ⟨hy, ⟨?_, hsub', fun hu => (by cases hu), fun _ hin => (by cases hin), hk hg,
      fun hle => absurd hlt' (Nat.not_lt.mpr hle), fun _ hended => ?_⟩, hg⟩
    · rw [hmtx]
      exact ⟨fun hc => absurd hc hout, fun hc => by cases hc⟩
    · rcases hstate with hrun' | hdone
      · rw [hrun'] at hended
        cases hended
      · exact hdone
  cases he with
  | check => exact hok keeps_refl rfl hsub (fun _ => hlt) (.inl hrun)
  | stop hoff => exact hok keeps_refl rfl hsub (fun _ => ⟨hlt, hoff⟩) (.inl hrun)
  | waitFailed => exact hok (keeps_terminate keeps_refl) rfl hsub (fun _ => hlt) (.inl hrun)
  | timeout => exact hok keeps_refl rfl hsub (fun _ => trivial) (.inl hrun)
  | ready => exact hok keeps_refl rfl hsub (fun _ => hlt) (.inl hrun)
  | closed =>
    refine hok keeps_disconnect rfl hsub (fun _ => ⟨hlt, fun _ => ?_⟩) (.inl ?_)
    · rw [Shared.disconnect, setClient_self]
    · rw [Shared.disconnect, setClient_self]
      exact hrun
  | received =>
    exact hok keeps_refl rfl hsub (fun _ => ⟨hlt, fun he => by cases he⟩) (.inl hrun)
  | lock hfree =>
    exact hok (keeps_lockSubscribers hfree) rfl ⟨fun _ => rfl, fun _ => rfl⟩ (fun _ => hknows)
      (.inl hrun)
  | skip => exact hok keeps_refl rfl hsub (fun _ => hknows) (.inl hrun)
  | notify => exact hok keeps_refl rfl hsub (fun _ => hknows) (.inl hrun)
  | enter => exact hok keeps_refl rfl hsub (fun _ => hknows) (.inl hrun)
  | leave => exact hok keeps_refl rfl hsub (fun _ => hknows) (.inl hrun)
  | again =>
    refine hok (keeps_unlockSubscribers (hsub.mpr rfl)) rfl ?_ (fun _ => trivial) (.inl hrun)
    exact ⟨fun hc => (by cases hc), fun hc => by cases hc⟩
  | finish =>
    refine hok (keeps_unlockSubscribers (hsub.mpr rfl)) rfl ?_ (fun _ => ⟨hlt, hknows.2 rfl⟩)
      (.inl hrun)
    exact ⟨fun hc => (by cases hc), fun hc => by cases hc⟩
  | ret =>
    refine hok (keeps_setClient ⟨rfl, rfl, id, id, fun hc => (by cases hc), id⟩ rfl (.inr rfl)
      (.inl rfl) fun hc => by cases hc) rfl hsub (fun _ => ⟨hlt, ?_⟩) (.inr rfl)
    rw [Shared.endReceiver, setClient_self]

theorem remover_ok {j : ℕ} {l m : RemoverPc} {e : Event} (hx : Inv S x)
    (h : Holds S (.remover j) l x) (hrun : x.removerRunning j = true)
    (he : RemoverStep S j x l e y m) : Ok S (.remover j) x m y := by
  have hout : x.subscribersMtx ≠ some (.remover j) := fun hc => by cases h.subscribersMtx.mp hc
  have hlock := h.clientsMtx
  have hthread := h.thread
  have hknows : RemoverHolds S j x l := h.knows
  have hok : Keeps S (.remover j) x y → y.subscribersMtx = x.subscribersMtx →
      (y.clientsMtx = some (.remover j) ↔ RemoverPc.locked m = true) →
      (¬S.closeFails → RemoverPc.locked m = true → ∀ c ∈ y.clients, ¬RemoverPc.Handled m c →
        (y.client c).receiveThread = true) →
      RemoverHolds S j y m → (y.removerRunning j = true ∨ m = .done) →
      Ok S (.remover j) x m y := by
    intro hkeeps hmtx hlock' hthread' hk hstate
    obtain ⟨hy, hg⟩ := hkeeps hx
    have hlt : j < y.nextRemover := Nat.lt_of_lt_of_le (hx.removers j hrun) hg.removers
    refine ⟨hy, ⟨hlock', ?_, fun hu => (by cases hu), hthread', hk,
      fun hle => absurd hlt (Nat.not_lt.mpr hle), fun _ hended => ?_⟩, hg⟩
    · rw [hmtx]
      exact ⟨fun hc => absurd hc hout, fun hc => by cases hc⟩
    · rcases hstate with hrun' | hdone
      · rw [hrun'] at hended
        cases hended
      · exact hdone
  have hfree : ¬S.closeFails → RemoverPc.locked .lock = true → ∀ c ∈ x.clients,
      ¬RemoverPc.Handled .lock c → (x.client c).receiveThread = true := fun _ hin => by cases hin
  cases he with
  | stop =>
    refine hok (keeps_endRemover j) rfl hlock hfree ⟨hx.removers j hrun, ?_⟩ (.inr rfl)
    exact Function.update_self ..
  | check => exact hok keeps_refl rfl hlock hfree trivial (.inl hrun)
  | lock hnone =>
    exact hok (keeps_lockClients hnone) rfl ⟨fun _ => rfl, fun _ => rfl⟩
      (fun hno _ c hc _ => hx.free hno hnone c hc) (List.Subset.refl _) (.inl hrun)
  | @connected c rest hon =>
    exact hok keeps_refl rfl hlock hthread (fun d hd => hknows (List.mem_cons_of_mem _ hd))
      (.inl hrun)
  | @found c rest hoff =>
    refine hok keeps_disconnect rfl hlock ?_ ⟨hknows (List.mem_cons_self ..), ?_⟩ (.inl hrun)
    · intro hno hin d hd hhandled
      exact (disconnect_receiveThread x c d).trans (hthread hno hin d hd hhandled)
    · rw [Shared.disconnect, setClient_self]
  | @join c hjoin =>
    obtain ⟨hc, hoff⟩ := hknows
    refine hok (keeps_dropThread (hlock.mpr rfl) hc hjoin) rfl hlock ?_ ⟨hc, ⟨?_, ?_⟩, ?_⟩
      (.inl hrun)
    · intro hno hin d hd hdc
      rw [Shared.dropThread, setClient_of_ne hdc]
      exact hthread hno hin d hd id
    · rw [Shared.dropThread, setClient_self]
    · intro hno
      rw [Shared.dropThread, setClient_self]
      exact hx.own hno c (hthread hno rfl c hc id)
    · rw [Shared.dropThread, setClient_self]
      exact hoff
  | @closed c hopen =>
    obtain ⟨hc, hjoined, hoff⟩ := hknows
    exact hok (keeps_closeClient (hlock.mpr rfl) hjoined) rfl hlock hthread
      ⟨hc, hjoined.1, closeDescriptor_ne x _ _, hoff⟩ (.inl hrun)
  | @closeFailed c hfailed =>
    obtain ⟨hc, hjoined, hoff⟩ := hknows
    have hfails := closeFails_of_failed hjoined hfailed
    exact hok (keeps_terminate (keeps_closeClient (hlock.mpr rfl) hjoined)) rfl hlock
      (fun hno => absurd hfails hno) ⟨hc, ⟨hjoined.1, fun hno => absurd hfails hno⟩, hoff⟩
      (.inl hrun)
  | @delete c =>
    obtain ⟨hc, hdrop, hfd, -⟩ := hknows
    have hdead : ¬x.Live c := by
      rintro (hlive | hlive)
      · rw [(hx.running c hlive).2] at hdrop
        cases hdrop
      · exact hfd hlive
    refine hok (keeps_removeClient (hlock.mpr rfl) hc hdead) rfl hlock ?_
      (List.Subset.refl _) (.inl hrun)
    intro hno _ d hd _
    obtain ⟨hdc, hd⟩ := hx.nodup.mem_erase_iff.mp hd
    rw [removeClient_old hdc]
    exact hthread hno rfl d hd hdc
  | unlock =>
    refine hok (keeps_unlockClients (hlock.mpr rfl) fun hno c hc => hthread hno rfl c hc id) rfl
      ⟨fun hc => (by cases hc), fun hc => (by cases hc)⟩ (fun _ hin => by cases hin) trivial
      (.inl hrun)
  | wake => exact hok keeps_refl rfl hlock hfree trivial (.inl hrun)

theorem keeps_closeServer : Keeps S t x (x.closeDescriptor x.sockfd) := by
  intro hx
  cases hs : x.sockfd with
  | none => exact keeps_refl hx
  | some l =>
    refine keeps_closeDescriptor (fun c hc => absurd ?_ (hx.sockfd c)) hx
    rw [hs]
    exact hc

/- What `addRemover` and `closeDescriptor` leave as it is. -/
def SameLists (x y : Shared U) : Prop :=
  y.nextClient = x.nextClient ∧ y.clientsMtx = x.clientsMtx ∧
    y.subscribersMtx = x.subscribersMtx ∧ y.clients = x.clients

theorem sameLists_addRemover (x : Shared U) (remove : Bool) :
    SameLists x (x.addRemover remove) := by
  cases remove <;> exact ⟨rfl, rfl, rfl, rfl⟩

theorem sameLists_closeDescriptor (x : Shared U) (fd : Option ℕ) :
    SameLists x (x.closeDescriptor fd) := by
  cases fd <;> exact ⟨rfl, rfl, rfl, rfl⟩

theorem Released.tail {c : ℕ} {rest : List ℕ} (h : Released x (c :: rest))
    (hjoined : Joined S x c) : Released (x.closeDescriptor (some (x.client c).sockfd)) rest := by
  refine ⟨(List.suffix_cons c rest).trans h.1, ?_⟩
  intro d hd hrest
  by_cases hdc : d = c
  · subst hdc
    exact ⟨hjoined.1, closeDescriptor_ne x _ _⟩
  · obtain ⟨hthread, hfd⟩ := h.2 d hd fun hmem => (List.mem_cons.mp hmem).elim hdc hrest
    exact ⟨hthread, fun hy => hfd (closeDescriptor_of_some hy)⟩

theorem userOk_of {u : U} {l m : UserPc} (hx : Inv S x) (h : Holds S (.user u) l x)
    (hkeeps : Keeps S (.user u) x y) (hmtx : y.subscribersMtx = x.subscribersMtx)
    (hlock : y.clientsMtx = some (.user u) ↔ UserPc.locked m = true)
    (hpending : Guar S (.user u) x y → Inv S y → u = S.acceptor →
      ∀ c, y.Live c → c ∈ y.clients ∨ UserPc.pushing m = some c)
    (hthread : ¬S.closeFails → UserPc.locked m = true → ∀ c ∈ y.clients, ¬UserPc.Handled m c →
      (y.client c).receiveThread = true)
    (hknows : Guar S (.user u) x y → UserHolds S u y m) : Ok S (.user u) x m y := by
  obtain ⟨hy, hg⟩ := hkeeps hx
  refine ⟨hy, ⟨hlock, ?_, fun hu => hpending hg hy (by injection hu), hthread, hknows hg,
    trivial⟩, hg⟩
  rw [hmtx]
  exact h.subscribersMtx

/- No client is on its way to the list, neither before the step nor after it. -/
theorem userOk_of_none {u : U} {l m : UserPc} (hx : Inv S x) (h : Holds S (.user u) l x)
    (hpush : UserPc.pushing l = none) (hkeeps : Keeps S (.user u) x y)
    (hnext : y.nextClient = x.nextClient) (hmtx : y.subscribersMtx = x.subscribersMtx)
    (hlock : y.clientsMtx = some (.user u) ↔ UserPc.locked m = true)
    (hthread : ¬S.closeFails → UserPc.locked m = true → ∀ c ∈ y.clients, ¬UserPc.Handled m c →
      (y.client c).receiveThread = true)
    (hknows : Guar S (.user u) x y → UserHolds S u y m) : Ok S (.user u) x m y := by
  refine userOk_of hx h hkeeps hmtx hlock ?_ hthread hknows
  intro hg hy hu c hlive
  have hlt := hy.lt_of_live hlive
  rw [hnext] at hlt
  rcases h.pending (by rw [hu]) c (hg.live hlt hlive) with hc | hc
  · exact .inl (hg.keeps c hc hlive)
  · change UserPc.pushing l = some c at hc
    rw [hpush] at hc
    cases hc

/- A step outside of `_clientsMtx`. -/
theorem userOk_outside {u : U} {l m : UserPc} (hx : Inv S x) (h : Holds S (.user u) l x)
    (hpush : UserPc.pushing l = none) (hl : UserPc.locked l = false)
    (hm : UserPc.locked m = false) (hkeeps : Keeps S (.user u) x y)
    (hnext : y.nextClient = x.nextClient) (hsub : y.subscribersMtx = x.subscribersMtx)
    (hmtx : y.clientsMtx = x.clientsMtx)
    (hknows : Guar S (.user u) x y → UserHolds S u y m) : Ok S (.user u) x m y := by
  refine userOk_of_none hx h hpush hkeeps hnext hsub ?_ ?_ hknows
  · rw [hmtx, hm, ← hl]
    exact h.clientsMtx
  · intro _ hin
    rw [hm] at hin
    cases hin

/- A step that takes `_clientsMtx`. -/
theorem userOk_lock {u : U} {l m : UserPc} (hx : Inv S x) (h : Holds S (.user u) l x)
    (hpush : UserPc.pushing l = none) (hfree : x.clientsMtx = none)
    (hm : UserPc.locked m = true) (hknows : UserHolds S u (x.lockClients (.user u)) m) :
    Ok S (.user u) x m (x.lockClients (.user u)) :=
  userOk_of_none hx h hpush (keeps_lockClients hfree) rfl rfl ⟨fun _ => hm, fun _ => rfl⟩
    (fun hno _ c hc _ => hx.free hno hfree c hc) fun _ => hknows

/- A step that keeps `_clientsMtx`. -/
theorem userOk_inside {u : U} {l m : UserPc} (hx : Inv S x) (h : Holds S (.user u) l x)
    (hpush : UserPc.pushing l = none) (hl : UserPc.locked l = true)
    (hm : UserPc.locked m = true) (hkeeps : Keeps S (.user u) x y)
    (hnext : y.nextClient = x.nextClient) (hsub : y.subscribersMtx = x.subscribersMtx)
    (hmtx : y.clientsMtx = x.clientsMtx)
    (hthread : ¬S.closeFails → (∀ c ∈ x.clients, ¬UserPc.Handled l c →
        (x.client c).receiveThread = true) →
      ∀ c ∈ y.clients, ¬UserPc.Handled m c → (y.client c).receiveThread = true)
    (hknows : Guar S (.user u) x y → UserHolds S u y m) : Ok S (.user u) x m y := by
  refine userOk_of_none hx h hpush hkeeps hnext hsub ?_ ?_ hknows
  · rw [hmtx, hm]
    exact ⟨fun _ => rfl, fun _ => h.clientsMtx.mpr hl⟩
  · intro hno _
    exact hthread hno (h.thread hno hl)

theorem user_ok {u : U} {l m : UserPc} {e : Event} (hx : Inv S x)
    (h : Holds S (.user u) l x) (he : UserStep S u x l e y m) : Ok S (.user u) x m y := by
  have hlock : UserPc.locked l = true → x.clientsMtx = some (.user u) := h.clientsMtx.mpr
  have hknows : UserHolds S u x l := h.knows
  cases he with
  | call hmay => exact userOk_outside hx h rfl rfl rfl keeps_refl rfl rfl rfl fun _ => hmay
  | @addRemover remove =>
    obtain ⟨hnext, hmtx, hsub, -⟩ := sameLists_addRemover x remove
    exact userOk_outside hx h rfl rfl rfl (keeps_addRemover hknows remove) hnext hsub hmtx
      fun _ => hknows
  | noSocket => exact userOk_outside hx h rfl rfl rfl keeps_noServer rfl rfl rfl fun _ => trivial
  | notBound hfd | started hfd =>
    exact userOk_outside hx h rfl rfl rfl
      (keeps_openDescriptor hfd (fun c hc => by cases hc) (.inr rfl)) rfl rfl rfl fun _ => trivial
  | acceptFailed | acceptTimeout | notSet =>
    exact userOk_outside hx h rfl rfl rfl keeps_refl rfl rfl rfl fun _ => trivial
  | @accept timeout l fd ip hsock hopen _ hfd =>
    have hnew : (x.addClient fd ip).client x.nextClient = ⟨fd, ip, true, true, true, true⟩ :=
      setClient_self ..
    refine userOk_of hx h (keeps_addClient hknows hsock hopen hfd) rfl h.clientsMtx ?_
      (fun _ hin => by cases hin) fun _ => ⟨hknows, Nat.lt_succ_self _, ?_, ?_, ?_⟩
    · intro hg hy hu c hlive
      by_cases hc : c = x.nextClient
      · exact .inr (by rw [hc]; rfl)
      · have hlt := hy.lt_of_live hlive
        have hlt' : c < x.nextClient := Nat.lt_of_le_of_ne (Nat.le_of_lt_succ hlt) hc
        rcases h.pending (by rw [hu]) c (hg.live hlt' hlive) with hin | hpush
        · exact .inl hin
        · cases hpush
    · rw [hnew]
    · exact fun hc => Nat.lt_irrefl _ (hx.lt hc)
    · intro _
      rw [hnew]
  | @push c hfree =>
    obtain ⟨hu, hlt, halive, hc, hthread⟩ := hknows
    refine userOk_of hx h (keeps_push hu hfree halive hc hthread) rfl h.clientsMtx ?_
      (fun _ hin => by cases hin) fun _ => trivial
    intro _ _ hu' d hlive
    rcases h.pending (by rw [hu']) d hlive with hd | hd
    · exact .inl (List.mem_append_left _ hd)
    · injection hd with hcd
      exact .inl (by simp [hcd])
  | subscribe hfree =>
    exact userOk_outside hx h rfl rfl rfl (keeps_subscribe hfree) rfl rfl rfl fun _ => trivial
  | lockAll hfree | lockPrint hfree => exact userOk_lock hx h rfl hfree rfl (List.Subset.refl _)
  | sent | printed =>
    exact userOk_inside hx h rfl rfl rfl keeps_refl rfl rfl rfl (fun _ => id)
      fun _ d hd => hknows (List.mem_cons_of_mem _ hd)
  | notSent | allSent | sentOne | allPrinted =>
    exact userOk_inside hx h rfl rfl rfl keeps_refl rfl rfl rfl (fun _ => id)
      fun _ => ⟨rfl, fun hop => by cases hop⟩
  | notFound hfree => exact userOk_lock hx h rfl hfree rfl ⟨rfl, fun hop => by cases hop⟩
  | found hfree hfind =>
    exact userOk_lock hx h rfl hfree rfl (List.mem_of_find?_eq_some hfind)
  | unlock =>
    refine userOk_of_none hx h rfl (keeps_unlockClients (hlock rfl)
      fun hno c hc => h.thread hno rfl c hc id) rfl rfl ?_ (fun _ hin => by cases hin)
      fun _ => trivial
    exact ⟨fun hc => (by cases hc), fun hc => (by cases hc)⟩
  | noRemover => exact userOk_outside hx h rfl rfl rfl keeps_refl rfl rfl rfl fun _ => hknows
  | stopRemover hlast =>
    exact userOk_outside hx h rfl rfl rfl keeps_stop rfl rfl rfl fun _ => ⟨hknows, hlast, rfl⟩
  | joinRemover hended =>
    obtain ⟨hu, hlast, hstop⟩ := hknows
    exact userOk_outside hx h rfl rfl rfl (keeps_forget hu hlast hstop hended) rfl rfl rfl
      fun _ => hu
  | lockClose hfree =>
    exact userOk_lock hx h rfl hfree rfl
      ⟨hknows, List.suffix_refl _, fun d hd hrest => absurd hd hrest⟩
  | @disconnect c rest =>
    obtain ⟨hu, hrel⟩ := hknows
    refine userOk_inside hx h rfl rfl rfl keeps_disconnect rfl rfl rfl ?_
      fun hg => ⟨hu, hrel.mono hx hg rfl, ?_⟩
    · intro _ hthread d hd hhandled
      exact (disconnect_receiveThread x c d).trans (hthread d hd hhandled)
    · rw [Shared.disconnect, setClient_self]
  | @join c rest hjoin =>
    obtain ⟨hu, hrel, -⟩ := hknows
    have hc : c ∈ x.clients := hrel.1.subset (List.mem_cons_self ..)
    refine userOk_inside hx h rfl rfl rfl (keeps_dropThread (hlock rfl) hc hjoin) rfl rfl rfl ?_
      fun hg => ⟨hu, hrel.mono hx hg rfl, ?_, ?_⟩
    · intro _ hthread d hd hhandled
      have hrest : d ∈ rest := not_not.mp hhandled
      have hdc : d ≠ c := by
        rintro rfl
        exact (List.nodup_cons.mp (hrel.1.sublist.nodup hx.nodup)).1 hrest
      rw [Shared.dropThread, setClient_of_ne hdc]
      exact hthread d hd fun hnot => hnot (List.mem_cons_of_mem _ hrest)
    · rw [Shared.dropThread, setClient_self]
    · intro hno
      rw [Shared.dropThread, setClient_self]
      exact hx.own hno c (h.thread hno rfl c hc fun hnot => hnot (List.mem_cons_self ..))
  | @closed c rest =>
    obtain ⟨hu, hrel, hjoined⟩ := hknows
    exact userOk_inside hx h rfl rfl rfl (keeps_closeClient (hlock rfl) hjoined) rfl rfl rfl
      (fun _ => id) fun _ => ⟨hu, hrel.tail hjoined⟩
  | @closeFailed c rest errno hfailed =>
    obtain ⟨-, -, hjoined⟩ := hknows
    have hfails := closeFails_of_failed hjoined hfailed
    exact userOk_inside hx h rfl rfl rfl (keeps_closeClient (hlock rfl) hjoined) rfl rfl rfl
      (fun hno => absurd hfails hno) fun _ => ⟨rfl, fun _ => hfails⟩
  | clear =>
    obtain ⟨hu, hrel⟩ := hknows
    refine userOk_inside hx h rfl rfl rfl (keeps_clear (hlock rfl) ?_) rfl rfl rfl
      (fun _ _ c hc => by cases hc) fun _ => ⟨hu, rfl⟩
    rintro c hc (hlive | hlive)
    · have hdrop := (hrel.2 c hc (List.not_mem_nil)).1
      rw [(hx.running c hlive).2] at hdrop
      cases hdrop
    · exact (hrel.2 c hc (List.not_mem_nil)).2 hlive
  | unlockClose =>
    obtain ⟨hu, hnil⟩ := hknows
    refine userOk_of_none hx h rfl (keeps_unlockClients (hlock rfl)
      fun hno c hc => h.thread hno rfl c hc id) rfl rfl ?_ (fun _ hin => by cases hin)
      fun _ => ⟨hu, fun _ => hnil⟩
    exact ⟨fun hc => (by cases hc), fun hc => (by cases hc)⟩
  | closeServer | closeServerFailed =>
    obtain ⟨hnext, hmtx, hsub, hclients⟩ := sameLists_closeDescriptor x x.sockfd
    refine userOk_outside hx h rfl rfl rfl keeps_closeServer hnext hsub hmtx
      fun _ => ⟨hknows.1, fun hca => ?_⟩
    rw [hclients]
    exact hknows.2 hca
  | finish => exact userOk_outside hx h rfl rfl rfl keeps_refl rfl rfl rfl fun _ => trivial

theorem other_ok {l m : Unit} {e : Event} (hx : Inv S x) (h : Holds S .other l x)
    (he : OtherStep x e y) : Ok S .other x m y := by
  have hok : Keeps S .other x y → y.clientsMtx = x.clientsMtx →
      y.subscribersMtx = x.subscribersMtx → Ok S .other x m y := by
    intro hkeeps hmtx hsub
    obtain ⟨hy, hg⟩ := hkeeps hx
    refine ⟨hy, ⟨?_, ?_, fun hu => (by cases hu), fun _ hin => (by cases hin), trivial, trivial⟩, hg⟩
    · rw [hmtx]
      exact h.clientsMtx
    · rw [hsub]
      exact h.subscribersMtx
  cases he with
  | opens hfd =>
    exact hok (keeps_openDescriptor hfd (fun c hc => by cases hc) (.inl rfl)) rfl rfl
  | closes hfd =>
    refine hok (keeps_closeDescriptor fun c hc => ?_) rfl rfl
    rw [hfd] at hc
    cases hc

theorem start_ok (S : Setting U) (fds : ℕ → Bool) {descriptors : ℕ → Option Holder}
    (hother : ∀ fd, descriptors fd = none ∨ descriptors fd = some .other) :
    Inv S (.start fds descriptors) ∧ ∀ t : Tid U, Holds S t (entry t) (.start fds descriptors) := by
  have hno : ∀ fd c, descriptors fd ≠ some (.client c) := by
    intro fd c hc
    rcases hother fd with hfd | hfd
    · rw [hfd] at hc
      cases hc
    · rw [hfd] at hc
      cases hc
  constructor
  · exact ⟨List.nodup_nil, fun c hc => (by cases hc), fun c hc => (by cases hc),
      fun c hc => (by cases hc), fun fd c hc => absurd hc (hno fd c), fun c hc => hno _ c hc,
      fun _ c hc => (by cases hc), fun _ _ c hc => (by cases hc), fun j hj => (by cases hj),
      fun j hj => (by cases hj), fun _ => ⟨fun hlt => (by cases hlt), fun j _ => rfl⟩⟩
  · intro t
    have hlive : ∀ c, ¬Shared.Live (Shared.start fds descriptors : Shared U) c := by
      rintro c (hc | hc)
      · cases hc
      · exact hno _ c hc
    have hpc : inClients t (entry t) = false ∧ inSubscribers t (entry t) = false ∧
        Knows S t (.start fds descriptors) (entry t) ∧
        ThreadState t (.start fds descriptors) (entry t) := by
      cases t with
      | remover j =>
        exact ⟨rfl, rfl, trivial, fun _ => rfl, fun hlt => absurd hlt (Nat.not_lt_zero j)⟩
      | receiver c =>
        exact ⟨rfl, rfl, trivial, fun _ => rfl, fun hlt => absurd hlt (Nat.not_lt_zero c)⟩
      | _ => exact ⟨rfl, rfl, trivial, trivial⟩
    obtain ⟨hin, hsub, hknows, hstate⟩ := hpc
    refine ⟨?_, ?_, fun _ c hc => absurd hc (hlive c), fun _ _ c hc => (by cases hc), hknows,
      hstate⟩
    · rw [hin]
      exact ⟨fun hc => (by cases hc), fun hc => by cases hc⟩
    · rw [hsub]
      exact ⟨fun hc => (by cases hc), fun hc => by cases hc⟩

def safety (S : Setting U) : RelyGuarantee (program S) where
  inv := Inv S
  holds t l x := Holds S t l x
  guar := Guar S
  init := by
    rintro x ⟨fds, descriptors, hother, rfl⟩
    exact start_ok S fds hother
  step := by
    intro t x l e y m hx h he
    cases t with
    | user u => exact user_ok hx h he.2
    | remover j => exact remover_ok hx h he.2.1 he.2.2
    | receiver c => exact receiver_ok hx h he.2.1 he.2.2
    | other => exact other_ok hx h he.2
  stable _ _ _ _ _ hne hx hy hg h := holds_stable hne hx hy hg h

variable [DecidableEq U]

theorem run_ok {tr : List (Tid U × Event)} {s : State U} (h : (system S).Run tr s) :
    (safety S).Ok s := (safety S).run h

end OSwitch.TcpServer
