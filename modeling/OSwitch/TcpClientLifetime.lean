import OSwitch.TcpClientSafety

/-!
# What `close` leaves behind and what it closes

`close` joins the thread that `_receiveTask` points to, which is the only one as
long as the program connects only a closed client. It closes what has the number
in `_sockfd`, which is the client's own socket unless an earlier `::close` failed.
-/

namespace OSwitch.TcpClient
open Wire StdText Trace Threads
open TcpServer (PipeRet Recv)

variable {U : Type*} {S : Setting U} {x y : Shared U}

/- In `close`, after `join`. -/
def UserPc.joined : UserPc → Bool
  | .closeFd | .closed | .finish .close _ => true
  | _ => false

theorem threadless_of_joined {l : UserPc} (h : UserPc.joined l = true) :
    UserPc.threadless l = true := by
  cases l with
  | closeFd | closed => rfl
  | finish op r =>
    cases op with
    | close => rfl
    | _ => cases h
  | _ => cases h

/- Where `::close` does not fail, `close` never reaches what is somebody else's. -/
theorem hit_of_step {t : Tid U} {l m : Pc t} {hit : Option Holder} {ok : Bool}
    (hok : ¬S.closeFails) (h : Holds S t l x) (he : step S t x l (.closed hit ok) y m) :
    hit ≠ some .other := by
  cases t with
  | user u =>
    have hheld (howner : u = S.owner) (hclosed : x.isClosed = false) (hl : l = .closeFd) :
        x.held ≠ some .other := by
      have hattached := h.attached howner hok
      rw [hl] at hattached
      rcases hattached (attached_closeFd hclosed) with ⟨-, hnone⟩ | ⟨n, -, hn⟩
      · simp [Shared.held, hnone]
      · simp [hn]
    cases he with
    | closed | closeFailed => exact hheld (h.owned rfl) (h.closing (h.owned rfl) rfl).1 rfl
  | receiver k => cases he.2
  | other => cases he

/-! ### Runs of the owner -/

/- The owner connects a client; `fd` is free. -/
theorem connects {u : U} (fd : ℕ) (hterm : x.terminated = false)
    (hmay : S.may u x .connectTo) (hfd : x.descriptors fd = none) :
    Solo (program S) (.user u) x .idle
      [.call .connectTo, .opened x.nextSocket, .tau, .tau, .created x.nextThread, .connected,
        .returned .connectTo .success]
      { (x.openSocket fd).startThread with isConnected := true, isClosed := false } .idle :=
  .cons ⟨hterm, .call hmay⟩ <| .cons ⟨hterm, .socket hfd⟩ <| .cons ⟨hterm, .resolved⟩ <|
    .cons ⟨hterm, .connect⟩ <| .cons ⟨hterm, .create⟩ <| .cons ⟨hterm, .connected⟩ <|
    .cons ⟨hterm, .opened⟩ .nil

/- A receive thread that finds the flag cleared returns. -/
theorem stops {k : ℕ} (hterm : x.terminated = false) (hrun : x.running k = true)
    (hc : x.isConnected = false) :
    Solo (program S) (.receiver k) x .check [.tau, .tau] (x.endThread k) .done :=
  .cons ⟨hterm, hrun, .stop hc⟩ <| .cons ⟨hterm, hrun, .ret⟩ .nil

/- One thread, which closes what it connects; `::close` succeeds. -/
def careful : Setting Unit := ⟨(), False, False⟩

/- Nothing is open in the process. -/
def State.fresh : State U := ⟨.start fun _ => none, entry⟩

variable [DecidableEq U]

theorem user_pc_of_ne {s : State U} {t : Tid U} {u : U} {m : Pc t} {l : UserPc}
    (ht : t ≠ .user u) (h : s.pc (.user u) = l) : (s.move t y m).pc (.user u) = l :=
  (move_pc_of_ne s ht.symm y m).trans h

theorem run_fresh (S : Setting U) : (system S).Run [] (State.fresh : State U) :=
  .init ⟨⟨_, fun _ => .inl rfl, rfl⟩, rfl⟩

/-! ### What `close` joins -/

/- The owner connects twice and closes: the first thread is left running. -/
theorem exists_unjoined (hre : S.reconnects) : ∃ tr s, (system S).Run tr s ∧
    UserPc.joined (s.pc (.user S.owner)) = true ∧ s.shared.running 0 = true := by
  have hclose (z : Shared U) : S.may S.owner z .close := rfl
  have h1 := Solo.run (i := Tid.user S.owner) (run_fresh S)
    (connects 0 rfl ⟨rfl, .inl rfl⟩ rfl)
  have h2 := Solo.run_at (i := Tid.user S.owner) h1 (move_pc ..)
    (connects 1 rfl ⟨rfl, .inr hre⟩ rfl)
  have h3 := Solo.run_at (i := Tid.user S.owner) h2 (move_pc ..)
    (.cons ⟨rfl, .call (hclose _)⟩ <| .cons ⟨rfl, .disconnect rfl⟩ .nil)
  have h4 := Solo.run_at (i := Tid.receiver 1) h3 rfl (stops rfl rfl rfl)
  have h5 := Solo.run_at (i := Tid.user S.owner) h4
    (user_pc_of_ne nofun (move_pc ..)) (.cons ⟨rfl, .join rfl rfl⟩ .nil)
  refine ⟨_, _, h5, ?_, rfl⟩
  rw [move_pc]
  rfl

/-- `close` goes on after `join` with no receive thread running, in every run, exactly
where the program never connects a client that it has not closed. -/
theorem joins_all_iff (S : Setting U) : ¬S.reconnects ↔
    ∀ tr s, (system S).Run tr s → UserPc.joined (s.pc (.user S.owner)) = true →
      s.shared.isConnected = false ∧ ∀ k, s.shared.running k = false := by
  constructor
  · intro hno tr s h hjoined
    have hd := run_disciplined hno h
    have hnone := hd.threadless (threadless_of_joined hjoined)
    constructor
    · apply Bool.eq_false_of_not_eq_true
      intro hc
      exact (hd.connected hc).1 hnone
    · intro k
      apply Bool.eq_false_of_not_eq_true
      intro hrun
      rw [hd.running k hrun] at hnone
      cases hnone
  · intro hall hre
    obtain ⟨tr, s, h, hjoined, hrun⟩ := exists_unjoined hre
    rw [(hall tr s h hjoined).2 0] at hrun
    cases hrun

/-! ### Whose descriptor `close` closes -/

/- `::close` fails and the number is given to somebody else before `close` is called
again. -/
theorem exists_foreign (hfail : S.closeFails) : ∃ tr s, (system S).Run tr s ∧
    (.user S.owner, .closed (some .other) true) ∈ tr := by
  have hclose (z : Shared U) : S.may S.owner z .close := rfl
  have h1 := Solo.run (i := Tid.user S.owner) (run_fresh S)
    (connects 0 rfl ⟨rfl, .inl rfl⟩ rfl)
  have h2 := Solo.run_at (i := Tid.user S.owner) h1 (move_pc ..)
    (.cons ⟨rfl, .call (hclose _)⟩ <| .cons ⟨rfl, .disconnect rfl⟩ .nil)
  have h3 := Solo.run_at (i := Tid.receiver 0) h2 rfl (stops rfl rfl rfl)
  have h4 := Solo.run_at (i := Tid.user S.owner) h3
    (user_pc_of_ne nofun (move_pc ..))
    (.cons ⟨rfl, .join rfl rfl⟩ <| .cons ⟨rfl, @UserStep.closeFailed _ S _ _ [] (.inr hfail)⟩ <|
      .cons ⟨rfl, .finish⟩ .nil)
  have h5 := Solo.run (i := Tid.other) (k := ()) h4 (.cons ⟨rfl, @OtherStep.opens _ _ 0 rfl⟩ .nil)
  have h6 := Solo.run_at (i := Tid.user S.owner) h5
    (user_pc_of_ne nofun (move_pc ..))
    (.cons ⟨rfl, .call (hclose _)⟩ <| .cons ⟨rfl, .disconnect rfl⟩ <|
      .cons ⟨rfl, .noThread rfl⟩ <| .cons ⟨rfl, .closed nofun⟩ .nil)
  refine ⟨_, _, h6, ?_⟩
  apply List.mem_append_right
  exact List.mem_of_getLast? rfl

/-- `close` never closes a descriptor that is somebody else's, in every run, exactly
where `::close` does not fail on an open descriptor. -/
theorem closes_own_iff (S : Setting U) : ¬S.closeFails ↔
    ∀ tr s, (system S).Run tr s → ∀ t ok, (t, .closed (some .other) ok) ∉ tr := by
  constructor
  · intro hok tr s h
    refine (safety S).invariant (I := fun tr _ => ∀ t ok, (t, .closed (some .other) ok) ∉ tr)
      (fun _ _ _ _ _ => nofun) ?_ h
    intro tr s i e y m hs ih he _ _ t ok hmem
    rcases List.mem_append.mp hmem with hmem | hmem
    · exact ih t ok hmem
    · cases List.mem_singleton.mp hmem
      exact hit_of_step hok (hs.holds i) he.2 rfl
  · intro hall hfail
    obtain ⟨tr, s, h, hmem⟩ := exists_foreign hfail
    exact hall tr s h _ _ hmem

end OSwitch.TcpClient
