import OSwitch.TcpClientLifetime

/-!
# What the observers of a client are told

The receive thread compares what `recv` returned as a `size_t`. Only the end of the
stream is told as a disconnection; a failed `recv` is told as a message of the
greatest length there is, and the thread goes on.
-/

namespace OSwitch.TcpClient
open Wire StdText Trace Threads
open TcpServer (PipeRet Recv)

variable {U : Type*} {S : Setting U} {x y : Shared U}

/-! ### What is received -/

/- What is told of a result of `recv`. -/
def heardAs : Recv → Publication
  | .eof => .serverDisconnected (.failure (text "Server closed connection"))
  | .error => .serverMsg [] (2 ^ 64 - 1)
  | .data bytes => .serverMsg bytes bytes.length

theorem publicationOf_eq {r : Recv} (hr : r.Valid) (errno : Bytes) :
    publicationOf r errno = heardAs r := by
  cases r with
  | eof | error => rfl
  | data bytes =>
    obtain ⟨hpos, hmax⟩ := hr
    have hlt : bytes.length < 2 ^ 64 := hmax.trans_lt (by decide)
    have hsize : TcpServer.sizeT (Recv.data bytes).ret = bytes.length := by
      rw [TcpServer.sizeT, Recv.ret]
      omega
    rw [publicationOf, hsize, if_neg (by omega)]
    rfl

/- What a receive thread has received and not told to everybody. -/
def ReceiverPc.pending : ReceiverPc → Option Publication
  | .publish p | .dispatch p _ => some p
  | _ => none

theorem pending_step {k : ℕ} {l m : ReceiverPc} {e : Event} (he : ReceiverStep k x l e y m)
    {p : Publication} (hp : ReceiverPc.pending m = some p) :
    ReceiverPc.pending l = some p ∨
      ∃ r, r.Valid ∧ e = .received x.held r p ∧ p = heardAs r := by
  cases he with
  | closed hr hpub | received hr hpub =>
    cases hp
    rw [publicationOf_eq hr] at hpub
    exact .inr ⟨_, hr, rfl, hpub.symm⟩
  | lock | skip | notify => exact .inl hp
  | _ => cases hp

theorem notified_step {k j : ℕ} {l m : ReceiverPc} {p : Publication}
    (he : ReceiverStep k x l (.notified j p) y m) : ReceiverPc.pending l = some p := by
  cases he with
  | notify => rfl

theorem receiver_of_notified {t : Tid U} {l m : Pc t} {j : ℕ} {p : Publication}
    (he : step S t x l (.notified j p) y m) : ∃ k, t = .receiver k := by
  cases t with
  | user u => cases he
  | receiver k => exact ⟨k, rfl⟩
  | other => cases he

/- Thread `k` has received what it tells as `p`. -/
def Heard (k : ℕ) (tr : List (Tid U × Event)) (p : Publication) : Prop :=
  ∃ hit r, r.Valid ∧ (.receiver k, .received hit r p) ∈ tr ∧ p = heardAs r

theorem Heard.snoc {k : ℕ} {tr : List (Tid U × Event)} {p : Publication} (h : Heard k tr p)
    (e : Tid U × Event) : Heard k (tr ++ [e]) p := by
  obtain ⟨hit, r, hr, hmem, hp⟩ := h
  exact ⟨hit, r, hr, List.mem_append_left _ hmem, hp⟩

/-! ### Who is told -/

/- The observers that thread `k` has told since it received last. -/
def tell (k : ℕ) (js : List ℕ) : Tid U × Event → List ℕ
  | (.receiver k', .received _ _ _) => if k' = k then [] else js
  | (.receiver k', .notified j _) => if k' = k then js ++ [j] else js
  | _ => js

def tellings (k : ℕ) (tr : List (Tid U × Event)) : List ℕ := tr.foldl (tell k) []

/- Those of the first `j` observers that have a handler for `p`. -/
def addressees (p : Publication) (os : List Observer) (j : ℕ) : List ℕ :=
  (List.range j).filter fun i => os[i]?.any (tells p)

theorem addressees_succ {p : Publication} {os : List Observer} {j : ℕ} {o : Observer}
    (ho : os[j]? = some o) :
    addressees p os (j + 1) = addressees p os j ++ if tells p o = true then [j] else [] := by
  rw [addressees, List.range_succ, List.filter_append]
  simp [addressees, ho, List.filter_singleton]

/- What a receive thread has told at its place. -/
def ToldAt (os : List Observer) (js : List ℕ) : ReceiverPc → Prop
  | .publish _ => js = []
  | .dispatch p j => j ≤ os.length ∧ js = addressees p os j
  | _ => True

theorem toldAt_step {k : ℕ} {js : List ℕ} {l m : ReceiverPc} {e : Event}
    (h : ToldAt x.subscribers js l) (he : ReceiverStep k x l e y m) :
    ToldAt y.subscribers (tell k js ((.receiver k : Tid U), e)) m := by
  cases he with
  | closed | received =>
    show tell k js _ = []
    simp [tell]
  | lock => exact ⟨Nat.zero_le _, h⟩
  | skip ho htells =>
    obtain ⟨hj, hjs⟩ := h
    refine ⟨(List.getElem?_eq_some_iff.mp ho).1, ?_⟩
    rw [addressees_succ ho, htells, hjs]
    simp [tell]
  | notify ho htells =>
    obtain ⟨hj, hjs⟩ := h
    refine ⟨(List.getElem?_eq_some_iff.mp ho).1, ?_⟩
    rw [addressees_succ ho, htells, hjs]
    simp [tell]
  | _ => trivial

theorem tell_other {k : ℕ} {js : List ℕ} {t : Tid U} {e : Event} (ht : t ≠ .receiver k) :
    tell k js (t, e) = js := by
  cases t with
  | receiver k' =>
    have hne : k' ≠ k := fun heq => ht (by rw [heq])
    cases e <;> simp [tell, hne]
  | _ => rfl

/- The list of the observers grows only while nobody holds its mutex. -/
theorem subscribers_step {t : Tid U} {l m : Pc t} {e : Event} (hmtx : x.subscribersMtx ≠ none)
    (he : step S t x l e y m) : y.subscribers = x.subscribers := by
  cases t with
  | user u =>
    cases he with
    | subscribe hnone => exact absurd hnone hmtx
    | closed | closeFailed => rw [closeSocket_eq]
    | _ => rfl
  | receiver k => cases he.2 <;> rfl
  | other => cases he <;> rfl

/-! ### Every run -/

variable [DecidableEq U] {tr : List (Tid U × Event)} {s : State U}

theorem run_pending (h : (system S).Run tr s) : ∀ k p,
    ReceiverPc.pending (s.pc (.receiver k)) = some p → Heard k tr p := by
  refine (safety S).invariant (I := fun tr s => ∀ k p,
    ReceiverPc.pending (s.pc (.receiver k)) = some p → Heard k tr p) ?_ ?_ h
  · intro s _ hpc k p hp
    rw [hpc] at hp
    cases hp
  · intro tr s t e y m hs ih he _ _ k p hp
    by_cases ht : t = .receiver k
    · subst ht
      rw [move_pc] at hp
      rcases pending_step he.2.2 hp with hold | ⟨r, hr, rfl, heard⟩
      · exact (ih k p hold).snoc _
      · exact ⟨_, r, hr, List.mem_append_right _ (List.mem_singleton_self _), heard⟩
    · rw [move_pc_of_ne s (Ne.symm ht)] at hp
      exact (ih k p hp).snoc _

theorem run_toldAt (h : (system S).Run tr s) (k : ℕ) :
    ToldAt s.shared.subscribers (tellings k tr) (s.pc (.receiver k)) := by
  refine (safety S).invariant (I := fun tr s =>
    ToldAt s.shared.subscribers (tellings k tr) (s.pc (.receiver k))) ?_ ?_ h
  · intro s _ hpc
    rw [hpc]
    trivial
  · intro tr s t e y m hs ih he _ _
    rw [tellings, List.foldl_append]
    by_cases ht : t = .receiver k
    · subst ht
      rw [move_pc]
      exact toldAt_step ih he.2.2
    · show ToldAt y.subscribers (tell k (tellings k tr) (t, e)) _
      rw [tell_other ht, move_pc_of_ne s (Ne.symm ht)]
      have hheld := (hs.holds (.receiver k)).subscribersMtx
      cases hpc : s.pc (.receiver k) with
      | dispatch p j =>
        rw [hpc] at ih hheld
        have hmtx : s.shared.subscribersMtx ≠ none := by
          rw [hheld.mpr rfl]
          exact nofun
        rw [subscribers_step hmtx he.2]
        exact ih
      | publish p =>
        rw [hpc] at ih
        exact ih
      | _ => trivial

/-- In every run, what an observer is told the thread that tells it has received
before: the disconnection when the server has closed the stream and not when `recv`
has failed, which is told as a message of `2 ^ 64 - 1` bytes. When the thread leaves
the mutex of the observers, it has told each that has a handler, in their order. -/
theorem tells_what_it_hears (h : (system S).Run tr s) :
    (∀ tr₁ tr₂ t j p, tr = tr₁ ++ (t, .notified j p) :: tr₂ →
      ∃ k, t = .receiver k ∧ Heard k tr₁ p) ∧
    ∀ k p j, s.pc (.receiver k) = .dispatch p j → s.shared.subscribers[j]? = none →
      Heard k tr p ∧
        tellings k tr = addressees p s.shared.subscribers s.shared.subscribers.length := by
  constructor
  · intro tr₁ tr₂ t j p htr
    obtain ⟨s₁, s₂, hrun, hstep⟩ := h.step_of_split htr
    obtain @⟨t, e, y, m, he⟩ := hstep
    obtain ⟨k, rfl⟩ := receiver_of_notified he.2
    exact ⟨k, rfl, run_pending hrun k p (notified_step he.2.2)⟩
  · intro k p j hpc hend
    have htold := run_toldAt h k
    rw [hpc] at htold
    obtain ⟨hj, hjs⟩ := htold
    have hlength : j = s.shared.subscribers.length :=
      Nat.le_antisymm hj (List.getElem?_eq_none_iff.mp hend)
    refine ⟨run_pending h k p ?_, hlength ▸ hjs⟩
    rw [hpc]
    rfl

/-! ### A failed `recv` -/

def listener : Observer := ⟨true, true⟩

def subscribing : List Event :=
  [.call (.subscribe listener), .returned (.subscribe listener) .success, .call .connectTo,
    .opened 0, .tau, .tau, .created 0, .connected, .returned .connectTo .success]

def failing : List Event :=
  [.tau, .tau, .received (some (.socket 0)) .error (heardAs .error), .tau,
    .notified 0 (heardAs .error)]

def failedTrace : List (Tid Unit × Event) :=
  subscribing.map (Prod.mk (.user ())) ++ failing.map (Prod.mk (.receiver 0))

theorem exists_failed : ∃ s, (system careful).Run failedTrace s ∧
    s.pc (.receiver 0) = .dispatch (heardAs .error) 1 ∧ s.shared.subscribers = [listener] := by
  have hmay (z : Shared Unit) : careful.may () z (.subscribe listener) := trivial
  have hpub : publicationOf .error [] = .serverMsg [] (2 ^ 64 - 1) :=
    publicationOf_eq (r := .error) trivial []
  have h1 := Solo.run (i := Tid.user ()) (run_fresh careful)
    (.cons ⟨rfl, .call (hmay _)⟩ <| .cons ⟨rfl, .subscribe rfl⟩ <|
      connects 0 rfl ⟨rfl, .inl rfl⟩ rfl)
  have h2 := Solo.run_at (i := Tid.receiver 0) h1 rfl
    (.cons ⟨rfl, rfl, .check rfl⟩ <| .cons ⟨rfl, rfl, .ready⟩ <|
      .cons ⟨rfl, rfl, .received (r := .error) trivial hpub⟩ <|
      .cons ⟨rfl, rfl, .lock rfl⟩ <| .cons ⟨rfl, rfl, .notify (o := listener) rfl rfl⟩ .nil)
  exact ⟨_, h2, move_pc .., rfl⟩

theorem tells_what_it_hears_failed : ∃ s, (system careful).Run failedTrace s ∧
    Heard 0 failedTrace (heardAs .error) ∧ tellings 0 failedTrace = [0] := by
  obtain ⟨s, h, hpc, hsub⟩ := exists_failed
  obtain ⟨heard, htold⟩ := (tells_what_it_hears h).2 0 _ 1 hpc (by rw [hsub]; rfl)
  refine ⟨s, h, heard, ?_⟩
  rw [htold, hsub]
  rfl

end OSwitch.TcpClient
