import OSwitch.TcpServerSafety

/-!
# Objects, descriptors and `close` over whole runs

Every client that was accepted is deleted once at most and never touched
afterwards, and its descriptor is closed once. `close` leaves no receive thread
behind where the thread that closes also accepts; what it closes under the
number of the listening socket is that socket only right after `start`.
-/

namespace OSwitch.TcpServer
open Wire Trace Threads

variable {U : Type*} {S : Setting U} {x y : Shared U}

/-! ### What a step does to objects and descriptors -/

def deletedOf : Event → Option ℕ
  | .deleted c => some c
  | _ => none

def closedOf : Event → Option ℕ
  | .closed (.client c) _ _ => some c
  | _ => none

def deletions (tr : List (Tid U × Event)) : List ℕ := tr.filterMap fun e => deletedOf e.2
def closings (tr : List (Tid U × Event)) : List ℕ := tr.filterMap fun e => closedOf e.2

theorem deletions_snoc (tr : List (Tid U × Event)) (t : Tid U) (e : Event) :
    deletions (tr ++ [(t, e)]) = deletions tr ++ (deletedOf e).toList := by
  rw [deletions, List.filterMap_append]
  cases h : deletedOf e <;> simp [deletions, h]

theorem closings_snoc (tr : List (Tid U × Event)) (t : Tid U) (e : Event) :
    closings (tr ++ [(t, e)]) = closings tr ++ (closedOf e).toList := by
  rw [closings, List.filterMap_append]
  cases h : closedOf e <;> simp [closings, h]

theorem deletedOf_step {t : Tid U} {l m : Pc t} {e : Event} (ht : ∀ j, t ≠ .remover j)
    (he : step S t x l e y m) : deletedOf e = none := by
  cases t with
  | user u => cases he <;> rfl
  | receiver c => cases he.2 <;> rfl
  | other => cases he <;> rfl
  | remover j => exact absurd rfl (ht j)

/- Only a remover that is at its `delete` deletes. -/
theorem deletes_of_step {t : Tid U} {l m : Pc t} {e : Event} (h : Holds S t l x)
    (he : step S t x l e y m) :
    deletedOf e = none ∨ ∃ c, e = .deleted c ∧ c ∈ x.clients ∧
      x.descriptors (x.client c).sockfd ≠ some (.client c) ∧ y = x.removeClient c := by
  cases t with
  | user u => exact .inl (deletedOf_step (fun j hj => by cases hj) he)
  | receiver c => exact .inl (deletedOf_step (fun j hj => by cases hj) he)
  | other => exact .inl (deletedOf_step (fun j hj => by cases hj) he)
  | remover j =>
    obtain ⟨-, he⟩ := he
    cases he with
    | @delete c => exact .inr ⟨c, rfl, h.knows.1, h.knows.2.2.1, rfl⟩
    | _ => exact .inl rfl

/-- The clients whose object the function that runs in the thread still uses. -/
def uses : ∀ t : Tid U, Pc t → List ℕ
  | .user _, .push c => [c]
  | .user _, .sendAll _ rest => rest
  | .user _, .sendOne _ _ c => [c]
  | .user _, .printing rest => rest
  | .user _, .closing rest => rest
  | .user _, .join c rest => c :: rest
  | .user _, .closeFd c rest => c :: rest
  | .user _, _ => []
  | .remover _, .scan rest => rest
  | .remover _, .join c => [c]
  | .remover _, .closeFd c => [c]
  | .remover _, .delete c => [c]
  | .remover _, _ => []
  | .receiver _, _ => []
  | .other, _ => []

theorem alive_of_uses {t : Tid U} {l : Pc t} (hx : Inv S x) (h : Holds S t l x) {c : ℕ}
    (hc : c ∈ uses t l) : (x.client c).alive = true := by
  have hknows := h.knows
  cases t with
  | user u =>
    cases l with
    | push d =>
      rw [List.mem_singleton.mp hc]
      exact hknows.2.2.1
    | sendAll | printing => exact hx.listed c (hknows hc)
    | sendOne clientIP msg d =>
      rw [List.mem_singleton.mp hc]
      exact hx.listed d hknows
    | closing rest => exact hx.listed c (hknows.2.1.subset hc)
    | join d rest => exact hx.listed c (hknows.2.1.1.subset hc)
    | closeFd d rest => exact hx.listed c (hknows.2.1.1.subset hc)
    | _ => cases hc
  | remover j =>
    cases l with
    | scan rest => exact hx.listed c (hknows hc)
    | join d | closeFd d | delete d =>
      rw [List.mem_singleton.mp hc]
      exact hx.listed d hknows.1
    | _ => cases hc
  | receiver d => cases hc
  | other => cases hc

/- The descriptors of clients stay as they are. -/
def KeepsClients (x y : Shared U) : Prop :=
  ∀ fd c, x.descriptors fd = some (.client c) → y.descriptors fd = some (.client c)

theorem keepsClients_close {fd : Option ℕ} (hfd : ∀ c, x.held fd ≠ some (.client c)) :
    KeepsClients x (x.closeDescriptor fd) := by
  intro fd' c hc
  cases fd with
  | none => exact hc
  | some fd => exact closeDescriptor_keeps (hfd c) hc

theorem keepsClients_addRemover (x : Shared U) (remove : Bool) :
    KeepsClients x (x.addRemover remove) := by
  intro fd c hc
  cases remove <;> exact hc

/- Where `::close` does not fail, a client's descriptor is closed by that client's
`close` and by nothing else. -/
theorem closes_of_step {t : Tid U} {l m : Pc t} {e : Event} (hreliable : ¬S.closeFails)
    (hx : Inv S x) (h : Holds S t l x) (he : step S t x l e y m) :
    (closedOf e = none ∧ KeepsClients x y) ∨
      ∃ c ∈ x.clients, e = .closed (.client c) (some (.client c)) true ∧
        x.descriptors (x.client c).sockfd = some (.client c) ∧
        y = x.closeDescriptor (some (x.client c).sockfd) := by
  have hknows := h.knows
  have hclose : ∀ {c : ℕ}, c ∈ x.clients → Joined S x c →
      ∃ d ∈ x.clients, Event.closed (.client c) (x.held (some (x.client c).sockfd)) true =
          .closed (.client d) (some (.client d)) true ∧
        x.descriptors (x.client d).sockfd = some (.client d) ∧
        x.closeDescriptor (some (x.client c).sockfd) =
          x.closeDescriptor (some (x.client d).sockfd) := by
    intro c hc hjoined
    refine ⟨c, hc, ?_, hjoined.2 hreliable, rfl⟩
    rw [show x.held (some (x.client c).sockfd) = some (.client c) from hjoined.2 hreliable]
  cases t with
  | receiver c => cases he.2 <;> exact .inl ⟨rfl, fun _ _ hc => hc⟩
  | other =>
    cases he with
    | opens hfd => exact .inl ⟨rfl, fun _ _ hc => openDescriptor_keeps hfd hc⟩
    | closes hfd =>
      refine .inl ⟨rfl, keepsClients_close fun c hc => ?_⟩
      rw [show x.held (some _) = some .other from hfd] at hc
      cases hc
  | remover j =>
    obtain ⟨-, he⟩ := he
    cases he with
    | closed => exact .inr (hclose hknows.1 hknows.2.1)
    | closeFailed hfailed => exact absurd (closeFails_of_failed hknows.2.1 hfailed) hreliable
    | _ => exact .inl ⟨rfl, fun _ _ hc => hc⟩
  | user u =>
    cases he with
    | addRemover => exact .inl ⟨rfl, keepsClients_addRemover x _⟩
    | notBound hfd | started hfd => exact .inl ⟨rfl, fun _ _ hc => openDescriptor_keeps hfd hc⟩
    | accept _ _ _ hfd => exact .inl ⟨rfl, fun _ _ hc => openDescriptor_keeps hfd hc⟩
    | closed => exact .inr (hclose (hknows.2.1.1.subset (List.mem_cons_self ..)) hknows.2.2)
    | closeFailed hfailed => exact absurd (closeFails_of_failed hknows.2.2 hfailed) hreliable
    | closeServer | closeServerFailed => exact .inl ⟨rfl, keepsClients_close hx.sockfd⟩
    | _ => exact .inl ⟨rfl, fun _ _ hc => hc⟩

/- Clients are made by `acceptClient` only. -/
theorem made_of_step {t : Tid U} {l m : Pc t} {e : Event} (he : step S t x l e y m) :
    y.nextClient = x.nextClient ∨ (closedOf e = none ∧ ∃ fd ip, y = x.addClient fd ip) := by
  cases t with
  | receiver c => cases he.2 <;> exact .inl rfl
  | other => cases he <;> exact .inl rfl
  | remover j => cases he.2 <;> exact .inl rfl
  | user u =>
    cases he with
    | addRemover => exact .inl (sameLists_addRemover x _).1
    | accept => exact .inr ⟨rfl, _, _, rfl⟩
    | closeServer | closeServerFailed => exact .inl (sameLists_closeDescriptor x _).1
    | _ => exact .inl rfl

variable [DecidableEq U]

/- Client `c` was deleted, and its descriptor had been closed before. -/
def Deleted (x : Shared U) (c : ℕ) : Prop :=
  c < x.nextClient ∧ (x.client c).alive = false ∧
    x.descriptors (x.client c).sockfd ≠ some (.client c)

omit [DecidableEq U] in
theorem Deleted.mono {t : Tid U} {c : ℕ} (hg : Guar S t x y) (h : Deleted x c) : Deleted y c := by
  obtain ⟨hlt, hdead, hfd⟩ := h
  have hl := hg.later c hlt
  refine ⟨Nat.lt_of_lt_of_le hlt hg.made, Bool.eq_false_of_not_eq_true fun halive => ?_, ?_⟩
  · rw [hl.alive halive] at hdead
    cases hdead
  · rw [hl.sockfd]
    exact fun hy => hfd (hg.released c hlt _ hy)

theorem deletions_ok {tr : List (Tid U × Event)} {s : State U} (h : (system S).Run tr s) :
    (deletions tr).Nodup ∧ ∀ c ∈ deletions tr, Deleted s.shared c := by
  refine (safety S).invariant (I := fun tr s => (deletions tr).Nodup ∧
    ∀ c ∈ deletions tr, Deleted s.shared c) ?_ ?_ h
  · intro s _ _
    exact ⟨List.nodup_nil, fun c hc => by cases hc⟩
  · intro tr s t e y m hok ih he hy hg
    have hold : ∀ c ∈ deletions tr, Deleted y c := fun c hc => (ih.2 c hc).mono hg
    rw [deletions_snoc]
    rcases deletes_of_step (hok.holds t) he.2 with hnone | ⟨c, rfl, hc, hfd, rfl⟩
    · rw [hnone, Option.toList_none, List.append_nil]
      exact ⟨ih.1, hold⟩
    · have hnew : c ∉ deletions tr := by
        intro hmem
        have hdead := (ih.2 c hmem).2.1
        rw [hok.inv.listed c hc] at hdead
        cases hdead
      refine ⟨List.nodup_append.mpr ⟨ih.1, List.nodup_singleton c, ?_⟩, ?_⟩
      · intro d hd d' hd' hdd
        rw [hdd, List.mem_singleton.mp hd'] at hd
        exact hnew hd
      · intro d hd
        rcases List.mem_append.mp hd with hd | hd
        · exact hold d hd
        · rw [List.mem_singleton.mp hd]
          have hrec : (s.shared.removeClient c).client c =
              { s.shared.client c with alive := false } := setClient_self ..
          rw [move_shared]
          refine ⟨hok.inv.lt hc, ?_, ?_⟩
          · rw [hrec]
          · rw [hrec]
            exact hfd

/-- No thread ever uses a client that was deleted: neither one that has it from
the list nor the client's own thread. No client is deleted twice. -/
theorem no_use_after_free {tr : List (Tid U × Event)} {s : State U} (h : (system S).Run tr s) :
    (∀ t, ∀ c ∈ uses t (s.pc t), c ∉ deletions tr) ∧
      (∀ c, (s.shared.client c).running = true → c ∉ deletions tr) ∧ (deletions tr).Nodup := by
  have hok := run_ok h
  obtain ⟨hnodup, hdead⟩ := deletions_ok h
  have hnot : ∀ c, (s.shared.client c).alive = true → c ∉ deletions tr := by
    intro c halive hc
    rw [(hdead c hc).2.1] at halive
    cases halive
  refine ⟨?_, ?_, hnodup⟩
  · intro t c hc
    exact hnot c (alive_of_uses hok.inv (hok.holds t) hc)
  · intro c hrun
    exact hnot c (hok.inv.running c hrun).1

/-! ### Descriptors -/

/- What the library has closed for its clients, and what is still open. -/
structure Ledger (tr : List (Tid U × Event)) (x : Shared U) : Prop where
  own : ∀ t c hit ok, (t, Event.closed (.client c) hit ok) ∈ tr → hit = some (.client c) ∧ ok = true
  once : (closings tr).Nodup
  open_iff : ∀ c < x.nextClient, c ∈ closings tr ↔
    x.descriptors (x.client c).sockfd ≠ some (.client c)
  made : ∀ c ∈ closings tr, c < x.nextClient

omit [DecidableEq U] in
/- No client's descriptor is closed; one may be new. -/
theorem Ledger.keep {tr : List (Tid U × Event)} {t : Tid U} {l m : Pc t} {e : Event}
    (h : Ledger tr x) (hg : Guar S t x y) (he : step S t x l e y m) (hnone : closedOf e = none)
    (hkeep : KeepsClients x y) : Ledger (tr ++ [(t, e)]) y := by
  have hsame : closings (tr ++ [(t, e)]) = closings tr := by
    rw [closings_snoc, hnone, Option.toList_none, List.append_nil]
  refine ⟨?_, hsame ▸ h.once, ?_, ?_⟩
  · intro t' c hit ok hc
    rcases List.mem_append.mp hc with hc | hc
    · exact h.own t' c hit ok hc
    · cases List.mem_singleton.mp hc
      cases hnone
  · intro c hc
    rw [hsame]
    by_cases hold : c < x.nextClient
    · rw [h.open_iff c hold, (hg.later c hold).sockfd]
      exact not_congr ⟨fun hfd => hkeep _ c hfd, fun hfd => hg.released c hold _ hfd⟩
    · refine iff_of_false (fun hmem => hold (h.made c hmem)) (not_not.mpr ?_)
      rcases made_of_step he with hnext | ⟨-, fd, ip, rfl⟩
      · exact absurd (hnext ▸ hc) hold
      · have hnew : c = x.nextClient :=
          Nat.le_antisymm (Nat.le_of_lt_succ hc) (Nat.le_of_not_lt hold)
        subst hnew
        rw [addClient_new]
        exact Function.update_self ..
  · intro c hc
    rw [hsame] at hc
    exact Nat.lt_of_lt_of_le (h.made c hc) hg.made

omit [DecidableEq U] in
/- The descriptor of client `c` is closed. -/
theorem Ledger.close {tr : List (Tid U × Event)} {t : Tid U} {c : ℕ} (h : Ledger tr x)
    (hlt : c < x.nextClient) (hown : x.descriptors (x.client c).sockfd = some (.client c)) :
    Ledger (tr ++ [(t, .closed (.client c) (some (.client c)) true)])
      (x.closeDescriptor (some (x.client c).sockfd)) := by
  have hlast : closings (tr ++ [(t, Event.closed (.client c) (some (.client c)) true)]) =
      closings tr ++ [c] := closings_snoc ..
  have hnew : c ∉ closings tr := fun hmem => (h.open_iff c hlt).mp hmem hown
  refine ⟨?_, ?_, ?_, ?_⟩
  · intro t' d hit ok hd
    rcases List.mem_append.mp hd with hd | hd
    · exact h.own t' d hit ok hd
    · cases List.mem_singleton.mp hd
      exact ⟨rfl, rfl⟩
  · rw [hlast]
    refine List.nodup_append.mpr ⟨h.once, List.nodup_singleton c, ?_⟩
    intro d hd d' hd' hdd
    rw [hdd, List.mem_singleton.mp hd'] at hd
    exact hnew hd
  · intro d hd
    rw [hlast, List.mem_append, List.mem_singleton, h.open_iff d hd]
    by_cases hdc : d = c
    · subst hdc
      exact iff_of_true (.inr rfl) (closeDescriptor_ne x _ _)
    · rw [or_iff_left hdc]
      refine not_congr ⟨fun hfd => ?_, closeDescriptor_of_some⟩
      refine closeDescriptor_keeps (fun hd => ?_) hfd
      rw [hown] at hd
      injection Option.some_inj.mp hd with hcd
      exact hdc hcd.symm
  · intro d hd
    rw [hlast] at hd
    rcases List.mem_append.mp hd with hd | hd
    · exact h.made d hd
    · rw [List.mem_singleton.mp hd]
      exact hlt

theorem run_ledger (hreliable : ¬S.closeFails) {tr : List (Tid U × Event)} {s : State U}
    (h : (system S).Run tr s) : Ledger tr s.shared := by
  refine (safety S).invariant (I := fun tr s => Ledger tr s.shared) ?_ ?_ h
  · rintro s ⟨fds, descriptors, -, hs⟩ -
    rw [hs]
    exact ⟨fun _ _ _ _ => nofun, List.nodup_nil, fun c hc => absurd hc (Nat.not_lt_zero c),
      fun _ => nofun⟩
  · intro tr s t e y m hok ih he _ hg
    rcases closes_of_step hreliable hok.inv (hok.holds t) he.2 with ⟨hnone, hkeep⟩ |
        ⟨c, hc, rfl, hown, rfl⟩
    · exact ih.keep hg he.2 hnone hkeep
    · exact ih.close (hok.inv.lt hc) hown

/-- Where `::close` fails only on a descriptor that is not open: whatever the
server closes for a client is that client's own open descriptor, it closes none
twice, every client that it has accepted either keeps its descriptor or has had
it closed, and the latter holds of those that were deleted. -/
theorem closes_own (hreliable : ¬S.closeFails) {tr : List (Tid U × Event)} {s : State U}
    (h : (system S).Run tr s) :
    (∀ t c hit ok, (t, Event.closed (.client c) hit ok) ∈ tr → hit = some (.client c) ∧ ok = true) ∧
      (closings tr).Nodup ∧
      (∀ c < s.shared.nextClient, c ∈ closings tr ↔
        s.shared.descriptors (s.shared.client c).sockfd ≠ some (.client c)) ∧
      deletions tr ⊆ closings tr := by
  have hledger := run_ledger hreliable h
  refine ⟨hledger.own, hledger.once, hledger.open_iff, ?_⟩
  intro c hc
  obtain ⟨hlt, -, hfd⟩ := (deletions_ok h).2 c hc
  exact (hledger.open_iff c hlt).mpr hfd

/-! ### A client that disconnects -/

/- One thread uses the server, as in the example program. -/
def oneThread : Setting Unit where
  closer := ()
  acceptor := ()
  observers _ := True
  closeFails := False

def started : Shared Unit := Shared.start (fun _ => false) fun _ => none

/- The server has accepted its first client. -/
def accepted : List Event :=
  [.call (.start true), .tau, .returned (.start true) .success, .call (.acceptClient 0), .tau,
    .accepted 0 []]

/- The client closes the connection, and its thread ends. -/
def hungUp : List Event :=
  [.tau, .tau, .received .eof .disconnected (text "Client closed connection"),
    .published [] .disconnected (text "Client closed connection"), .tau, .tau]

/- A remover finds the client. -/
def removed : List Event :=
  [.tau, .tau, .tau, .tau, .closed (.client 0) (some (.client 0)) true, .deleted 0]

def removedTrace : List (Tid Unit × Event) :=
  accepted.map (Prod.mk (.user ())) ++ hungUp.map (Prod.mk (.receiver 0)) ++
    removed.map (Prod.mk (.remover 0))

omit [DecidableEq U] in
theorem started_at {u : U} {remove : Bool} (fd : ℕ) (hfd : x.descriptors fd = none) :
    UserStep S u x (.starting remove) (.returned (.start remove) .success) (x.openServer fd)
      .idle := .started hfd

omit [DecidableEq U] in
theorem accept_from {u : U} {l : ℕ} (fd : ℕ) (ip : Bytes) (hl : x.sockfd = some l)
    (hopen : x.descriptors l ≠ none) (hfd : x.descriptors fd = none) :
    UserStep S u x (.call (.acceptClient 0)) .tau (x.addClient fd ip) (.push x.nextClient) :=
  .accept hl hopen (fun h => absurd h (Nat.lt_irrefl 0)) hfd

omit [DecidableEq U] in
theorem accept_at {u : U} {l : ℕ} (fd : ℕ) (hl : x.sockfd = some l) (hopen : x.descriptors l ≠ none)
    (hfd : x.descriptors fd = none) : UserStep S u x (.call (.acceptClient 0)) .tau
      (x.addClient fd []) (.push x.nextClient) := accept_from fd [] hl hopen hfd

omit [DecidableEq U] in
theorem eof_step {c : ℕ} : ReceiverStep c x .recv
    (.received .eof .disconnected (text "Client closed connection")) (x.disconnect c)
    (.publish .disconnected (text "Client closed connection")) := by
  have hpub : publishedOf .eof [] [] = (.disconnected, text "Client closed connection") := rfl
  exact .closed trivial hpub

omit [DecidableEq U] in
theorem data_step {c : ℕ} : ReceiverStep c x .recv (.received (.data [65]) .incomingMsg [65]) x
    (.publish .incomingMsg [65]) := by
  have hpub : publishedOf (.data [65]) [] [] = (.incomingMsg, [65]) := by decide
  exact .received ⟨by decide, by decide⟩ hpub

theorem oneThread_may (op : Call) : oneThread.may () op := by
  cases op with
  | start | acceptClient | close => rfl
  | subscribe | sendToAllClients | sendToClient | printClients => trivial

theorem exists_removed : ∃ s, (system oneThread).Run removedTrace s := by
  have h0 : (system oneThread).Run [] ⟨started, entry⟩ :=
    .init ⟨⟨_, _, fun _ => .inl rfl, rfl⟩, rfl⟩
  have h1 : (system oneThread).Run (accepted.map (Prod.mk (.user ()))) _ :=
    Solo.run (i := Tid.user ()) h0
    (.cons ⟨rfl, .call (oneThread_may (.start true))⟩ <| .cons ⟨rfl, .addRemover⟩ <|
      .cons ⟨rfl, started_at 0 rfl⟩ <| .cons ⟨rfl, .call (oneThread_may (.acceptClient 0))⟩ <|
      .cons ⟨rfl, accept_at 1 rfl (by decide) rfl⟩ <| .cons ⟨rfl, .push rfl⟩ .nil)
  have h2 : (system oneThread).Run (accepted.map (Prod.mk (.user ())) ++
      hungUp.map (Prod.mk (.receiver 0))) _ := Solo.run (i := Tid.receiver 0) h1
    (.cons ⟨rfl, rfl, .check rfl⟩ <| .cons ⟨rfl, rfl, .ready⟩ <| .cons ⟨rfl, rfl, eof_step⟩ <|
      .cons ⟨rfl, rfl, .lock rfl⟩ <| .cons ⟨rfl, rfl, .finish rfl⟩ <|
      .cons ⟨rfl, rfl, .ret⟩ .nil)
  have h3 : (system oneThread).Run removedTrace _ := Solo.run (i := Tid.remover 0) h2
    (.cons ⟨rfl, rfl, .check rfl⟩ <| .cons ⟨rfl, rfl, .lock rfl⟩ <|
      .cons ⟨rfl, rfl, .found rfl⟩ <| .cons ⟨rfl, rfl, .join fun _ => rfl⟩ <|
      .cons ⟨rfl, rfl, .closed (by decide)⟩ <| .cons ⟨rfl, rfl, .delete⟩ .nil)
  exact ⟨_, h3⟩

theorem no_use_after_free_removed : ∃ s, (system oneThread).Run removedTrace s ∧
    deletions removedTrace = [0] ∧ ∀ t, 0 ∉ uses t (s.pc t) := by
  obtain ⟨s, hrun⟩ := exists_removed
  have hdeleted : deletions removedTrace = [0] := by decide
  refine ⟨s, hrun, hdeleted, fun t hc => (no_use_after_free hrun).1 t 0 hc ?_⟩
  rw [hdeleted]
  exact List.mem_singleton_self 0

theorem closes_own_removed : ∃ s, (system oneThread).Run removedTrace s ∧
    closings removedTrace = [0] ∧ deletions removedTrace ⊆ closings removedTrace := by
  obtain ⟨s, hrun⟩ := exists_removed
  exact ⟨s, hrun, by decide, (closes_own (S := oneThread) id hrun).2.2.2⟩

/-! ### After `close` -/

/- The thread that closes has come to an end of `close`: its body is done, or a
client's `close` has failed. -/
def Closing (S : Setting U) (s : State U) : Prop :=
  s.pc (.user S.closer) = .closeServer ∨ (∃ r, s.pc (.user S.closer) = .finish r) ∨
    ∃ r, s.pc (.user S.closer) = .unlock .close r

theorem nothing_left {tr : List (Tid U × Event)} {s : State U} (h : (system S).Run tr s)
    (hone : S.closer = S.acceptor) (hreliable : ¬S.closeFails) (hclose : Closing S s) :
    s.shared.clients = [] ∧ ∀ c, ¬s.shared.Live c := by
  have hholds : Holds S (.user S.closer) (s.pc (.user S.closer)) s.shared := (run_ok h).holds _
  have hpending := hholds.pending (by rw [hone])
  have hknows : UserHolds S S.closer s.shared (s.pc (.user S.closer)) := hholds.knows
  have hnil : s.shared.clients = [] ∧ UserPc.pushing (s.pc (.user S.closer)) = none := by
    rcases hclose with hpc | ⟨r, hpc⟩ | ⟨r, hpc⟩
    · rw [hpc] at hknows ⊢
      exact ⟨hknows.2 hone, rfl⟩
    · rw [hpc] at hknows ⊢
      exact ⟨hknows.2 hone, rfl⟩
    · rw [hpc] at hknows
      exact absurd (hknows.2 rfl) hreliable
  refine ⟨hnil.1, fun c hlive => ?_⟩
  rcases hpending c hlive with hc | hpush
  · rw [hnil.1] at hc
    cases hc
  · change UserPc.pushing (s.pc (.user S.closer)) = some c at hpush
    rw [hnil.2] at hpush
    cases hpush

/- A client is accepted and not in the list yet when the other thread closes. -/
theorem exists_left (hne : S.closer ≠ S.acceptor) :
    ∃ tr s, (system S).Run tr s ∧ s.pc (.user S.closer) = .finish .success ∧
      (s.shared.client 0).running = true := by
  have hother : Tid.user S.closer ≠ Tid.user S.acceptor := fun h => hne (by injection h)
  have h0 : (system S).Run [] ⟨Shared.start (fun _ => false) fun _ => none, entry⟩ :=
    .init ⟨⟨_, _, fun _ => .inl rfl, rfl⟩, rfl⟩
  have hmay : ∀ b, S.may S.closer (.start b) := fun _ => rfl
  have hclose : S.may S.closer .close := rfl
  have haccept : S.may S.acceptor (.acceptClient 0) := rfl
  have h1 := Solo.run (i := Tid.user S.closer) h0
    (.cons ⟨rfl, .call (hmay false)⟩ <| .cons ⟨rfl, .addRemover⟩ <|
      .cons ⟨rfl, started_at 0 rfl⟩ .nil)
  have h2 := Solo.run_at (i := Tid.user S.acceptor) h1 (move_pc_of_ne _ hother.symm _ _)
    (.cons ⟨rfl, .call haccept⟩ <|
      .cons ⟨rfl, accept_at 1 rfl (Option.some_ne_none (Holder.server 1)) rfl⟩ .nil)
  have h3 := Solo.run_at (i := Tid.user S.closer) h2
    ((move_pc_of_ne _ hother _ _).trans (move_pc ..))
    (.cons ⟨rfl, .call hclose⟩ <| .cons ⟨rfl, .noRemover rfl⟩ <| .cons ⟨rfl, .lockClose rfl⟩ <|
      .cons ⟨rfl, .clear⟩ <| .cons ⟨rfl, .unlockClose⟩ <|
      .cons ⟨rfl, .closeServer (Option.some_ne_none (Holder.server 1))⟩ .nil)
  exact ⟨_, _, h3, move_pc .., rfl⟩

/- The thread that accepts a client closes the server; the client's thread ends,
and `::close` fails. -/
theorem exists_failed (hone : S.closer = S.acceptor) (hfails : S.closeFails) :
    ∃ tr s, (system S).Run tr s ∧ s.pc (.user S.closer) = .unlock .close (.failure []) ∧
      s.shared.clients = [0] := by
  have h0 : (system S).Run [] ⟨Shared.start (fun _ => false) fun _ => none, entry⟩ :=
    .init ⟨⟨_, _, fun _ => .inl rfl, rfl⟩, rfl⟩
  have hstart : S.may S.closer (.start false) := rfl
  have hclose : S.may S.closer .close := rfl
  have haccept : S.may S.closer (.acceptClient 0) := hone
  have h1 := Solo.run (i := Tid.user S.closer) h0
    (.cons ⟨rfl, .call hstart⟩ <| .cons ⟨rfl, .addRemover⟩ <| .cons ⟨rfl, started_at 0 rfl⟩ <|
      .cons ⟨rfl, .call haccept⟩ <|
      .cons ⟨rfl, accept_at 1 rfl (Option.some_ne_none (Holder.server 1)) rfl⟩ <|
      .cons ⟨rfl, .push rfl⟩ <| .cons ⟨rfl, .call hclose⟩ <| .cons ⟨rfl, .noRemover rfl⟩ <|
      .cons ⟨rfl, .lockClose rfl⟩ <| .cons ⟨rfl, .disconnect⟩ .nil)
  have hother : Tid.receiver 0 ≠ Tid.user S.closer := nofun
  have h2 := Solo.run_at (i := Tid.receiver 0) h1 (move_pc_of_ne _ hother _ _)
    (.cons ⟨rfl, rfl, .stop rfl⟩ <| .cons ⟨rfl, rfl, .ret⟩ .nil)
  have h3 := Solo.run_at (i := Tid.user S.closer) (k := .unlock .close (.failure [])) h2
    ((move_pc_of_ne _ hother.symm _ _).trans (move_pc ..))
    (.cons ⟨rfl, .join fun _ => rfl⟩ <| .cons ⟨rfl, .closeFailed (.inr hfails)⟩ .nil)
  exact ⟨_, _, h3, move_pc .., rfl⟩

/-- Wherever `close` ends, it finds no receive thread running and no client's
descriptor open, exactly where the thread that closes is the one that accepts and
`::close` fails only on a descriptor that is not open. -/
theorem quiet_after_close_iff (S : Setting U) : S.closer = S.acceptor ∧ ¬S.closeFails ↔
    ∀ tr s, (system S).Run tr s → Closing S s →
      s.shared.clients = [] ∧ ∀ c, ¬s.shared.Live c := by
  constructor
  · intro hquiet tr s h hclose
    obtain ⟨hone, hreliable⟩ := hquiet
    exact nothing_left h hone hreliable hclose
  · intro h
    have hone : S.closer = S.acceptor := by
      by_contra hne
      obtain ⟨tr, s, hrun, hpc, hlive⟩ := exists_left hne
      exact (h tr s hrun (.inr (.inl ⟨_, hpc⟩))).2 0 (.inl hlive)
    refine ⟨hone, fun hfails => ?_⟩
    obtain ⟨tr, s, hrun, hpc, hclients⟩ := exists_failed hone hfails
    have hnil := (h tr s hrun (.inr (.inr ⟨_, hpc⟩))).1
    rw [hclients] at hnil
    cases hnil

/-! ### The descriptor of the server -/

/- What has happened to the listening socket: `start` returned, `close` closed it. -/
inductive ServerEvent where
  | started (ok : Bool)
  | closed
  deriving DecidableEq, Repr

def serverEventOf : Event → Option ServerEvent
  | .returned (.start _) r => some (.started r.successFlag)
  | .closed .server _ _ => some .closed
  | _ => none

def serverEvents (tr : List (Tid U × Event)) : List ServerEvent :=
  tr.filterMap fun e => serverEventOf e.2

def lastServerEvent (tr : List (Tid U × Event)) : Option ServerEvent := (serverEvents tr).getLast?

/- How often `start` has come back. -/
def starts (tr : List (Tid U × Event)) : ℕ := (serverEvents tr).countP (· ≠ .closed)

omit [DecidableEq U] in
theorem serverEvents_snoc (tr : List (Tid U × Event)) (t : Tid U) (e : Event) :
    serverEvents (tr ++ [(t, e)]) = serverEvents tr ++ (serverEventOf e).toList := by
  rw [serverEvents, List.filterMap_append]
  cases h : serverEventOf e <;> simp [serverEvents, h]

/- The server's descriptors stay as they are. -/
def KeepsServer (x y : Shared U) : Prop :=
  y.sockfd = x.sockfd ∧ y.starts = x.starts ∧
    ∀ fd k, y.descriptors fd = some (.server k) ↔ x.descriptors fd = some (.server k)

omit [DecidableEq U] in
theorem KeepsServer.held (h : KeepsServer x y) (k : ℕ) :
    y.held y.sockfd = some (.server k) ↔ x.held x.sockfd = some (.server k) := by
  unfold Shared.held
  rw [h.1]
  cases x.sockfd with
  | none => exact Iff.rfl
  | some fd => exact h.2.2 fd k

/- What a step does to the listening socket: a `start` that came back has left its
own one, or none where it failed; `close` leaves none. -/
inductive ServerStep (x y : Shared U) (e : Event) : Prop
  | keep : serverEventOf e = none → KeepsServer x y → ServerStep x y e
  | start {ok} : serverEventOf e = some (.started ok) → y.starts = x.starts + 1 →
      y.held y.sockfd = some (.server y.starts) ∨ (y.sockfd = none ∧ ok = false) →
      ServerStep x y e
  | close {ok} : e = .closed .server (x.held x.sockfd) ok → y.starts = x.starts →
      (∀ a, y.held y.sockfd ≠ some a) → (ok = true ↔ x.held x.sockfd ≠ none) → ServerStep x y e

/- What the descriptor of the server stands for, by what happened last. -/
structure ServerSocket (tr : List (Tid U × Event)) (x : Shared U) : Prop where
  count : x.starts = starts tr
  started : ∀ ok, lastServerEvent tr = some (.started ok) →
    x.held x.sockfd = some (.server x.starts) ∨ (x.sockfd = none ∧ ok = false)
  gone : lastServerEvent tr = none ∨ lastServerEvent tr = some .closed →
    ∀ k, x.held x.sockfd ≠ some (.server k)

omit [DecidableEq U] in
theorem ServerSocket.step {tr : List (Tid U × Event)} {t : Tid U} {e : Event}
    (h : ServerSocket tr x) (he : ServerStep x y e) : ServerSocket (tr ++ [(t, e)]) y := by
  have hsnoc := serverEvents_snoc tr t e
  cases he with
  | keep hnone hkeep =>
    rw [hnone, Option.toList_none, List.append_nil] at hsnoc
    have hlast : lastServerEvent (tr ++ [(t, e)]) = lastServerEvent tr :=
      congrArg List.getLast? hsnoc
    refine ⟨?_, fun ok hstarted => ?_, fun hgone k hk => ?_⟩
    · rw [hkeep.2.1, h.count]
      simp [starts, hsnoc]
    · rw [hlast] at hstarted
      rw [hkeep.held, hkeep.1, hkeep.2.1]
      exact h.started ok hstarted
    · rw [hlast] at hgone
      exact h.gone hgone k ((hkeep.held k).mp hk)
  | @start ok hstart hstarts hheld =>
    have hlast : lastServerEvent (tr ++ [(t, e)]) = some (.started ok) := by
      simp [lastServerEvent, hsnoc, hstart]
    refine ⟨?_, fun ok' hlast' => ?_, fun hlast' => ?_⟩
    · rw [hstarts, h.count]
      simp [starts, hsnoc, hstart]
    · rw [hlast] at hlast'
      cases hlast'
      exact hheld
    · rw [hlast] at hlast'
      rcases hlast' with h | h <;> cases h
  | @close ok hevent hstarts hheld _ =>
    have hclosed : serverEventOf e = some .closed := by rw [hevent]; rfl
    have hlast : lastServerEvent (tr ++ [(t, e)]) = some .closed := by
      simp [lastServerEvent, hsnoc, hclosed]
    refine ⟨?_, fun ok' hlast' => ?_, fun _ k => hheld _⟩
    · rw [hstarts, h.count]
      simp [starts, hsnoc, hclosed]
    · rw [hlast] at hlast'
      cases hlast'

/- No remover is in a pass, and none will begin one. -/
structure Stopped (s : State U) : Prop where
  stop : s.shared.stopRemoveClientsTask = true
  idle : ∀ j, s.pc (.remover j) = .check ∨ s.pc (.remover j) = .sleep ∨ s.pc (.remover j) = .done

/- The one remover that was created has been joined. -/
theorem stopped_of_joined {tr : List (Tid U × Event)} {s : State U} (h : (system S).Run tr s)
    (hone : s.shared.nextRemover = 1) (hjoined : s.shared.clientsRemoverThread = none) :
    Stopped s := by
  have hok := run_ok h
  have hinv : Inv S s.shared := hok.inv
  obtain ⟨hstop, hlast⟩ := hinv.joined hjoined
  refine ⟨hstop (by omega), fun j => ?_⟩
  have hstate := (hok.holds (.remover j)).threadState
  by_cases hj : j < s.shared.nextRemover
  · exact .inr (.inr (hstate.2 hj (hlast j (by omega))))
  · exact .inl (hstate.1 (by omega))

theorem stopped_step {s : State U} {t : Tid U} {e : Event} {m : Pc t} (h : Stopped s)
    (hg : Guar S t s.shared y) (he : step S t s.shared (s.pc t) e y m) :
    Stopped (s.move t y m) ∧ deletedOf e = none := by
  have hothers : ∀ j, Tid.remover j ≠ t → (s.move t y m).pc (.remover j) = s.pc (.remover j) :=
    fun j hj => move_pc_of_ne s hj y m
  have hothersOk : (∀ j, t ≠ .remover j) → Stopped (s.move t y m) ∧ deletedOf e = none := by
    intro ht
    refine ⟨⟨hg.stop h.stop, fun j => ?_⟩, deletedOf_step ht he⟩
    rw [hothers j (ht j).symm]
    exact h.idle j
  cases t with
  | user u => exact hothersOk fun j hj => by cases hj
  | receiver c => exact hothersOk fun j hj => by cases hj
  | other => exact hothersOk fun j hj => by cases hj
  | remover j =>
    obtain ⟨-, he⟩ := he
    have hnext : (m = .check ∨ m = .sleep ∨ m = .done) ∧ deletedOf e = none := by
      rcases h.idle j with hpc | hpc | hpc
      · rw [hpc] at he
        cases he with
        | stop => exact ⟨.inr (.inr rfl), rfl⟩
        | check hgo =>
          rw [h.stop] at hgo
          cases hgo
      · rw [hpc] at he
        cases he with
        | wake => exact ⟨.inl rfl, rfl⟩
      · rw [hpc] at he
        cases he
    refine ⟨⟨hg.stop h.stop, fun j' => ?_⟩, hnext.2⟩
    by_cases hj : j' = j
    · subst hj
      rw [move_pc]
      exact hnext.1
    · rw [hothers j' fun hjj => hj (by injection hjj)]
      exact h.idle j'

/-- The flag that stops the remover is never cleared: once `close` has joined the
only remover, no client is deleted any more, however often the server is started
again. -/
theorem never_removes_again {tr tr' : List (Tid U × Event)} {s s' : State U}
    (h : (system S).Run tr s) (hone : s.shared.nextRemover = 1)
    (hjoined : s.shared.clientsRemoverThread = none)
    (h' : ((system S).startingAt s).Run tr' s') : deletions tr' = [] := by
  have hall : (∃ tr, (system S).Run tr s') ∧ Stopped s' ∧ deletions tr' = [] := by
    refine h'.invariant (I := fun tr' s' => (∃ tr, (system S).Run tr s') ∧ Stopped s' ∧
      deletions tr' = []) ?_ ?_
    · rintro _ rfl
      exact ⟨⟨tr, h⟩, stopped_of_joined h hone hjoined, rfl⟩
    · rintro tr' s₁ e s₂ - ⟨⟨tr, hrun⟩, hstopped, hnone⟩ hstep
      have hok := run_ok hrun
      refine ⟨⟨_, hrun.snoc hstep⟩, ?_⟩
      obtain @⟨t, e, y, m, he⟩ := hstep
      have hg := ((safety S).step t _ _ e y m hok.inv (hok.holds t) he).2.2
      obtain ⟨hstopped', hdel⟩ := stopped_step hstopped hg he.2
      refine ⟨hstopped', ?_⟩
      rw [deletions_snoc, hnone, hdel]
      rfl
  exact hall.2.2

/- The server starts, and `close` ends its remover and joins it. -/
def joinedRemover : List (Tid Unit × Event) :=
  [.call (.start true), .tau, .returned (.start true) .success, .call .close, .tau].map
    (Prod.mk (.user ())) ++ [(.remover 0, .tau), (.user (), .tau)]

/- `close` ends, the server starts once more, and a client comes and goes. -/
def startedAgain : List Event :=
  [.tau, .tau, .tau, .closed .server (some (.server 1)) true, .returned .close .success] ++ accepted

def restarted : List (Tid Unit × Event) :=
  startedAgain.map (Prod.mk (.user ())) ++ hungUp.map (Prod.mk (.receiver 0))

theorem exists_restarted : ∃ s, (system oneThread).Run joinedRemover s ∧
    s.shared.nextRemover = 1 ∧ s.shared.clientsRemoverThread = none ∧
    ∃ s', ((system oneThread).startingAt s).Run restarted s' ∧ s'.shared.clients = [0] ∧
      (s'.shared.client 0).isConnected = false := by
  have h0 : (system oneThread).Run [] ⟨started, entry⟩ :=
    .init ⟨⟨_, _, fun _ => .inl rfl, rfl⟩, rfl⟩
  have h1 := Solo.run (i := Tid.user ()) h0
    (.cons ⟨rfl, .call (oneThread_may (.start true))⟩ <| .cons ⟨rfl, .addRemover⟩ <|
      .cons ⟨rfl, started_at 0 rfl⟩ <| .cons ⟨rfl, .call (oneThread_may .close)⟩ <|
      .cons ⟨rfl, .stopRemover rfl⟩ .nil)
  have h2 := Solo.run (i := Tid.remover 0) h1 (.cons ⟨rfl, rfl, .stop rfl⟩ .nil)
  have h3 := Solo.run (i := Tid.user ()) h2 (.cons ⟨rfl, .joinRemover rfl⟩ .nil)
  have h4 := Solo.after (i := Tid.user ()) h3
    (.cons ⟨rfl, .lockClose rfl⟩ <| .cons ⟨rfl, .clear⟩ <| .cons ⟨rfl, .unlockClose⟩ <|
      .cons ⟨rfl, .closeServer (by decide)⟩ <| .cons ⟨rfl, .finish⟩ <|
      .cons ⟨rfl, .call (oneThread_may (.start true))⟩ <| .cons ⟨rfl, .addRemover⟩ <|
      .cons ⟨rfl, started_at 2 rfl⟩ <| .cons ⟨rfl, .call (oneThread_may (.acceptClient 0))⟩ <|
      .cons ⟨rfl, accept_at 1 rfl (by decide) rfl⟩ <| .cons ⟨rfl, .push rfl⟩ .nil)
  have h5 := Solo.after (i := Tid.receiver 0) (h3.append h4)
    (.cons ⟨rfl, rfl, .check rfl⟩ <| .cons ⟨rfl, rfl, .ready⟩ <| .cons ⟨rfl, rfl, eof_step⟩ <|
      .cons ⟨rfl, rfl, .lock rfl⟩ <| .cons ⟨rfl, rfl, .finish rfl⟩ <| .cons ⟨rfl, rfl, .ret⟩ .nil)
  exact ⟨_, h3, rfl, rfl, _, h4.append h5, rfl, rfl⟩

theorem never_removes_again_restarted : ∃ s s', (system oneThread).Run joinedRemover s ∧
    ((system oneThread).startingAt s).Run restarted s' ∧ s'.shared.clients = [0] ∧
    (s'.shared.client 0).isConnected = false ∧ deletions restarted = [] := by
  obtain ⟨s, hrun, hone, hjoined, s', hrun', hclients, hoff⟩ := exists_restarted
  exact ⟨s, s', hrun, hrun', hclients, hoff, never_removes_again hrun hone hjoined hrun'⟩

end OSwitch.TcpServer
