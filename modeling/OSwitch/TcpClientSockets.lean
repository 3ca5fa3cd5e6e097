import OSwitch.TcpClientLifetime

/-!
# The sockets of a client

A socket is open from `connectTo` to `close`. One that `connectTo` opens and then
fails with is never closed: the next `connectTo` puts another in its place.
-/

namespace OSwitch.TcpClient
open Wire StdText Trace Threads
open TcpServer (PipeRet Recv)

variable {U : Type*} {S : Setting U} {x y : Shared U} {b : Option ℕ × List ℕ}

/-! ### What has happened -/

/- The socket of the `connectTo` that runs, and those of the `connectTo` that have
failed. -/
def note (b : Option ℕ × List ℕ) : Event → Option ℕ × List ℕ
  | .opened n => (some n, b.2)
  | .returned .connectTo r => (none, if r.successFlag then b.2 else b.2 ++ b.1.toList)
  | _ => b

def sockets (tr : List (Tid U × Event)) : Option ℕ × List ℕ :=
  tr.foldl (fun b e => note b e.2) (none, [])

def failedSockets (tr : List (Tid U × Event)) : List ℕ := (sockets tr).2

def Shared.Open (x : Shared U) (n : ℕ) : Prop := ∃ fd, x.descriptors fd = some (.socket n)

/- In `connectTo`, after `socket`. -/
def UserPc.socketed : UserPc → Bool
  | .resolve | .connecting | .starting | .created | .connected => true
  | _ => false

structure Accounts (b : Option ℕ × List ℕ) (x : Shared U) (l : UserPc) : Prop where
  pending : UserPc.socketed l = true → ∃ n, n + 1 = x.nextSocket ∧ b.1 = some n
  settled : UserPc.socketed l = false → b.1 = none
  opens : ∀ n, x.Open n ↔
    n ∈ b.2 ∨ UserPc.attached l x.isClosed = true ∧ n + 1 = x.nextSocket
  apart : UserPc.attached l x.isClosed = true → ∀ n ∈ b.2, n + 1 < x.nextSocket

/- The sockets stay as they are. -/
theorem Accounts.move {l m : UserPc} (h : Accounts b x l)
    (hopen : ∀ n, y.Open n ↔ x.Open n) (hnext : y.nextSocket = x.nextSocket)
    (hsocketed : UserPc.socketed m = UserPc.socketed l)
    (hattached : UserPc.attached m y.isClosed = UserPc.attached l x.isClosed) :
    Accounts b y m := by
  refine ⟨?_, ?_, ?_, ?_⟩
  · rw [hsocketed, hnext]
    exact h.pending
  · rw [hsocketed]
    exact h.settled
  · intro n
    rw [hopen, hattached, hnext]
    exact h.opens n
  · rw [hattached, hnext]
    exact h.apart

/- `connectTo` fails: a closed client keeps the socket. -/
theorem Accounts.fail {l : UserPc} (h : Accounts b x l)
    (hsocketed : UserPc.socketed l = true) (hattached : UserPc.attached l x.isClosed = true)
    (hclosed : x.isClosed = true) : Accounts (none, b.2 ++ b.1.toList) x .idle := by
  have hidle : UserPc.attached .idle x.isClosed ≠ true := by
    rw [hclosed]
    exact nofun
  obtain ⟨n, hn, hb⟩ := h.pending hsocketed
  refine ⟨nofun, fun _ => rfl, ?_, fun ha => absurd ha hidle⟩
  intro n'
  rw [h.opens n', hb]
  constructor
  · rintro (hmem | ⟨-, hn'⟩)
    · exact .inl (List.mem_append_left _ hmem)
    · have heq : n' = n := by omega
      exact .inl (List.mem_append_right _ (List.mem_singleton.mpr heq))
  · rintro (hmem | ⟨ha, -⟩)
    · rcases List.mem_append.mp hmem with hmem | hmem
      · exact .inl hmem
      · rw [List.mem_singleton.mp hmem]
        exact .inr ⟨hattached, hn⟩
    · exact absurd ha hidle

theorem openSocket_open {fd : ℕ} (hfd : x.descriptors fd = none) (n : ℕ) :
    (x.openSocket fd).Open n ↔ x.Open n ∨ n = x.nextSocket := by
  constructor
  · rintro ⟨fd', hn⟩
    by_cases heq : fd' = fd
    · subst heq
      simp only [Shared.openSocket, Function.update_self, Option.some.injEq,
        Holder.socket.injEq] at hn
      exact .inr hn.symm
    · simp only [Shared.openSocket, Function.update_of_ne heq] at hn
      exact .inl ⟨fd', hn⟩
  · rintro (⟨fd', hn⟩ | rfl)
    · have hne : fd' ≠ fd := by
        rintro rfl
        rw [hfd] at hn
        cases hn
      exact ⟨fd', (Function.update_of_ne hne ..).trans hn⟩
    · exact ⟨fd, Function.update_self ..⟩

theorem closeSocket_open {n : ℕ} (hx : Inv x) (hheld : x.held = some (.socket n)) (n' : ℕ) :
    x.closeSocket.Open n' ↔ x.Open n' ∧ n' ≠ n := by
  obtain ⟨fd, hfd, hn⟩ := Option.bind_eq_some_iff.mp hheld
  constructor
  · rintro ⟨fd', hn'⟩
    obtain ⟨hold, hne⟩ := closeSocket_descriptors hn'
    refine ⟨⟨fd', hold⟩, ?_⟩
    rintro rfl
    rw [hfd, hx.unique fd' fd n' hold hn] at hne
    exact hne rfl
  · rintro ⟨⟨fd', hn'⟩, hne⟩
    have hfd' : fd' ≠ fd := by
      rintro rfl
      rw [hn] at hn'
      cases hn'
      exact hne rfl
    refine ⟨fd', ?_⟩
    rw [Shared.closeSocket, hfd]
    exact (Function.update_of_ne hfd' ..).trans hn'

/-! ### One step -/

theorem Accounts.stable {l : UserPc} (h : Accounts b x l) (henv : Env x y) : Accounts b y l :=
  h.move (fun n => exists_congr fun fd => henv.sockets fd n) henv.nextSocket rfl
    (by rw [henv.isClosed])

/- Only the owner is in `connectTo`. -/
theorem note_other {t : Tid U} {l m : Pc t} {e : Event} (ht : t ≠ .user S.owner)
    (h : Holds S t l x) (he : step S t x l e y m) : note b e = b := by
  cases t with
  | user u =>
    have hfree := not_owned h.owned fun hu => ht (by rw [hu])
    cases he with
    | call | send | subscribe => rfl
    | @finish op r =>
      cases op with
      | connectTo | close => cases hfree
      | _ => rfl
    | _ => cases hfree
  | receiver k => cases he.2 <;> rfl
  | other => cases he <;> rfl

/- What `close` closes is the last socket. -/
theorem closeFd_held (hok : ¬S.closeFails) (hno : ¬S.reconnects)
    (hu : UserHolds S S.owner x .closeFd) :
    ∃ n, n + 1 = x.nextSocket ∧ x.held = some (.socket n) :=
  (hu.attached rfl hok (attached_closeFd (hu.closing rfl rfl).1)).resolve_left
    fun hre => hno hre.1

/- Where no `connectTo` runs, a return says nothing about a socket. -/
theorem note_settled (hb : b.1 = none) (op : Call) (r : PipeRet) :
    note b (.returned op r) = b := by
  cases b with
  | mk pending failed =>
    cases hb
    cases op with
    | connectTo => simp [note]
    | _ => rfl

theorem accounts_step {l m : UserPc} {e : Event} (hok : ¬S.closeFails) (hno : ¬S.reconnects)
    (hx : Inv x) (hu : UserHolds S S.owner x l) (h : Accounts b x l)
    (he : UserStep S S.owner x l e y m) : Accounts (note b e) y m := by
  have hd := hu.disciplined rfl hno
  cases he with
  | call | resolved | connect | send | isClosed | noThread =>
    exact h.move (fun _ => Iff.rfl) rfl rfl rfl
  | create | connected | subscribe | disconnect | join =>
    exact h.move (fun _ => Iff.rfl) rfl rfl rfl
  | noSocket =>
    rw [note_settled (h.settled rfl)]
    exact h.move (fun _ => Iff.rfl) rfl rfl rfl
  | @socket fd hfd =>
    have hclosed : UserPc.attached (.call .connectTo) x.isClosed ≠ true := by
      rw [hd.opening rfl]
      exact nofun
    have hfailed (n : ℕ) : x.Open n ↔ n ∈ b.2 := by
      rw [h.opens n]
      exact or_iff_left fun ha => hclosed ha.1
    refine ⟨fun _ => ⟨_, rfl, rfl⟩, nofun, ?_, ?_⟩
    · intro n
      rw [openSocket_open hfd, hfailed]
      refine or_congr Iff.rfl ⟨fun heq => ⟨rfl, congrArg Nat.succ heq⟩, ?_⟩
      intro ha
      exact Nat.succ.inj ha.2
    · intro _ n hn
      obtain ⟨fd', hfd'⟩ := (hfailed n).mpr hn
      exact Nat.succ_lt_succ (hx.sockets fd' n hfd')
  | notResolved | notConnected => exact h.fail rfl rfl (hd.opening rfl)
  | opened => exact ⟨nofun, fun _ => rfl, h.opens, h.apart⟩
  | closed hheld =>
    have hattached := attached_closeFd (hu.closing rfl rfl).1
    obtain ⟨n, hn, hsocket⟩ := closeFd_held hok hno hu
    refine ⟨nofun, fun _ => h.settled rfl, ?_, nofun⟩
    intro n'
    rw [closeSocket_open hx hsocket, h.opens n']
    constructor
    · rintro ⟨hmem | ⟨-, hn'⟩, hne⟩
      · exact .inl hmem
      · exact absurd (Nat.succ.inj (hn'.trans hn.symm)) hne
    · rintro (hmem | ⟨ha, -⟩)
      · have := h.apart hattached n' hmem
        exact ⟨.inl hmem, by omega⟩
      · cases ha
  | closeFailed hfail =>
    obtain ⟨n, -, hsocket⟩ := closeFd_held hok hno hu
    rw [hsocket] at hfail
    exact absurd (hfail.resolve_left nofun) hok
  | close => exact h.move (fun _ => Iff.rfl) rfl rfl rfl
  | finish =>
    rw [note_settled (h.settled rfl)]
    exact h.move (fun _ => Iff.rfl) rfl rfl rfl

/-! ### Every run -/

/- A socket that is counted as failed stays so. -/
theorem failed_foldl (tr : List (Tid U × Event)) (b : Option ℕ × List ℕ) :
    b.2 ⊆ (tr.foldl (fun b e => note b e.2) b).2 := by
  induction tr generalizing b with
  | nil => exact List.Subset.refl _
  | cons e tr ih =>
    have hnote : b.2 ⊆ (note b e.2).2 := by
      unfold note
      split
      · exact List.Subset.refl _
      · split
        · exact List.Subset.refl _
        · exact List.subset_append_left ..
      · exact List.Subset.refl _
    exact fun n hn => ih (note b e.2) (hnote hn)

theorem start_accounts {descriptors : ℕ → Option Holder}
    (h : ∀ fd, descriptors fd = none ∨ descriptors fd = some .other) :
    Accounts (none, []) (.start descriptors : Shared U) .idle := by
  refine ⟨nofun, fun _ => rfl, ?_, nofun⟩
  intro n
  apply iff_of_false
  · rintro ⟨fd, hfd⟩
    exact absurd ((start_inv (U := U) h).sockets fd n hfd) (Nat.not_lt_zero n)
  · exact fun hn => hn.elim nofun nofun

variable [DecidableEq U] {tr : List (Tid U × Event)} {s : State U}

theorem run_accounts (hok : ¬S.closeFails) (hno : ¬S.reconnects) (h : (system S).Run tr s) :
    Accounts (sockets tr) s.shared (s.pc (.user S.owner)) := by
  refine (safety S).invariant
    (I := fun tr s => Accounts (sockets tr) s.shared (s.pc (.user S.owner))) ?_ ?_ h
  · rintro s ⟨descriptors, hother, hs⟩ hpc
    rw [hs, hpc]
    exact start_accounts hother
  · intro tr s t e y m hs ih he _ hg
    rw [sockets, List.foldl_append]
    by_cases ht : t = .user S.owner
    · subst ht
      rw [move_pc]
      exact accounts_step hok hno hs.inv (hs.holds (.user S.owner)) ih he.2
    · rw [move_pc_of_ne s (Ne.symm ht)]
      show Accounts (note (sockets tr) e) y _
      rw [note_other ht (hs.holds t) he.2]
      exact ih.stable (hg.env ht)

/-- While the owner is in no call, the open sockets of a client are those that a
`connectTo` has opened and failed with, and the one of a client that is not closed.
The former stay open whatever happens. -/
theorem open_sockets (hok : ¬S.closeFails) (hno : ¬S.reconnects) (h : (system S).Run tr s)
    (hidle : s.pc (.user S.owner) = .idle) :
    (∀ n, s.shared.Open n ↔
      n ∈ failedSockets tr ∨ s.shared.isClosed = false ∧ n + 1 = s.shared.nextSocket) ∧
    ∀ tr' s', ((system S).startingAt s).Run tr' s' →
      ∀ n ∈ failedSockets tr, s'.shared.Open n := by
  constructor
  · intro n
    have hopen := (run_accounts hok hno h).opens n
    rw [hidle] at hopen
    rw [hopen, ← Bool.not_eq_true' s.shared.isClosed]
    rfl
  · intro tr' s' h' n hn
    have haccounts := run_accounts hok hno (h.append h')
    rw [haccounts.opens n]
    left
    rw [sockets, List.foldl_append]
    exact failed_foldl tr' _ hn

/- The server cannot be resolved, then it can. -/
def retry : List Event :=
  [.call .connectTo, .opened 0,
    .returned .connectTo (.failure (text "Failed to resolve hostname")),
    .call .connectTo, .opened 1, .tau, .tau, .created 0, .connected,
    .returned .connectTo .success]

def retryTrace : List (Tid Unit × Event) := retry.map (Prod.mk (.user ()))

theorem exists_retry : ∃ s, (system careful).Run retryTrace s ∧ s.pc (.user ()) = .idle := by
  have hmay : careful.may () (.start fun _ => none) .connectTo := ⟨rfl, .inl rfl⟩
  have h1 := Solo.run (i := Tid.user ()) (run_fresh careful)
    (.cons ⟨rfl, .call hmay⟩ <| .cons ⟨rfl, @UserStep.socket _ _ _ _ 0 rfl⟩ <|
      .cons ⟨rfl, .notResolved⟩ <| connects 1 rfl ⟨rfl, .inl rfl⟩ rfl)
  exact ⟨_, h1, move_pc ..⟩

theorem open_sockets_retry : ∃ s, (system careful).Run retryTrace s ∧
    ∀ n, s.shared.Open n ↔ n ∈ [0] ∨ s.shared.isClosed = false ∧ n + 1 = s.shared.nextSocket := by
  obtain ⟨s, h, hidle⟩ := exists_retry
  exact ⟨s, h, (open_sockets (S := careful) id id h hidle).1⟩

end OSwitch.TcpClient
