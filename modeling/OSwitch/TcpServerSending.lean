import OSwitch.TcpServerLifetime

/-!
# What `sendToAllClients` and `sendToClient` have sent

A send to all clients sends to each client of the list in turn, up to the first
one to which only a part was sent. A send to one address goes to the first client
of the list that has it. What `::send` returns is stored in a `size_t`, so that
an error counts as everything sent.
-/

namespace OSwitch.TcpServer
open Wire StdText Trace Threads

variable {U : Type*} {S : Setting U} {x y : Shared U}

/-! ### The sends of a call -/

/- The message counts as sent. -/
def Full (msgSize : ℕ) (p : ℕ × ℤ) : Prop := msgSize ≤ sizeT p.2

/- What a call of `sendToAllClients` with this result has sent. -/
def SentToAll (x : Shared U) (msg : Bytes) (r : PipeRet) (sent : List (ℕ × ℤ)) : Prop :=
  (r = .success ∧ sent.map Prod.fst = x.clients ∧ ∀ p ∈ sent, Full msg.length p) ∨
    ∃ before c ret after, sent = before ++ [(c, ret)] ∧
      x.clients = before.map Prod.fst ++ c :: after ∧ (∀ p ∈ before, Full msg.length p) ∧
      ¬Full msg.length (c, ret) ∧ r = .failure (notAllSent (sizeT ret) msg.length)

/- Client `c` is the first one with this address. -/
def First (x : Shared U) (clientIP : Bytes) (c : ℕ) : Prop :=
  ∃ before after, x.clients = before ++ c :: after ∧
    (∀ d ∈ before, (x.client d).ip ≠ clientIP) ∧ (x.client c).ip = clientIP

/- What a call of `sendToClient` with this result has sent. -/
def SentToOne (x : Shared U) (clientIP msg : Bytes) (r : PipeRet) (sent : List (ℕ × ℤ)) : Prop :=
  (r = .failure (text "client not found") ∧ sent = [] ∧
      ∀ c ∈ x.clients, (x.client c).ip ≠ clientIP) ∨
    ∃ c ret, First x clientIP c ∧ sent = [(c, ret)] ∧
      ((Full msg.length (c, ret) ∧ r = .success) ∨
        (¬Full msg.length (c, ret) ∧ r = .failure (notAllSent (sizeT ret) msg.length)))

/- What user `u` has sent in a call, by the place that it is at. -/
def Sending (x : Shared U) : UserPc → List (ℕ × ℤ) → Prop
  | .call _, sent => sent = []
  | .sendAll msg rest, sent =>
    x.clients = sent.map Prod.fst ++ rest ∧ ∀ p ∈ sent, Full msg.length p
  | .sendOne clientIP _ c, sent => sent = [] ∧ First x clientIP c
  | .unlock (.sendToAllClients msg) r, sent => SentToAll x msg r sent
  | .unlock (.sendToClient clientIP msg) r, sent => SentToOne x clientIP msg r sent
  | _, _ => True

/-! ### The result of one send -/

theorem sendToClient_cases (ret : ℤ) (errno : Bytes) (msgSize c : ℕ) :
    (Full msgSize (c, ret) ∧ sendToClient ret errno msgSize = .success) ∨
      (¬Full msgSize (c, ret) ∧
        sendToClient ret errno msgSize = .failure (notAllSent (sizeT ret) msgSize)) := by
  unfold Full sendToClient
  by_cases h : sizeT ret < msgSize
  · right
    simp [h]
  · left
    simp [h, Nat.le_of_not_lt h]

theorem full_of_success {ret : ℤ} {errno : Bytes} {msgSize c : ℕ}
    (h : sendToClient ret errno msgSize = .success) : Full msgSize (c, ret) := by
  cases sendToClient_cases ret errno msgSize c with
  | inl hfull => exact hfull.1
  | inr hpart =>
    rw [hpart.2] at h
    cases h

theorem part_of_failure {ret : ℤ} {errno : Bytes} {msgSize c : ℕ}
    (h : (sendToClient ret errno msgSize).successFlag = false) : ¬Full msgSize (c, ret) ∧
      sendToClient ret errno msgSize = .failure (notAllSent (sizeT ret) msgSize) := by
  cases sendToClient_cases ret errno msgSize c with
  | inl hfull =>
    rw [hfull.2] at h
    cases h
  | inr hpart => exact hpart

/- An error of `::send` counts as everything sent. -/
theorem full_of_error {msgSize c : ℕ} (h : msgSize < 2 ^ 64) : Full msgSize (c, -1) := by
  have hsize : sizeT (-1) = 2 ^ 64 - 1 := by decide
  unfold Full
  rw [hsize]
  omega

/-! ### The other threads -/

theorem First.of_same {clientIP : Bytes} {c : ℕ} (hclients : y.clients = x.clients)
    (hip : ∀ d ∈ x.clients, (y.client d).ip = (x.client d).ip) (h : First x clientIP c) :
    First y clientIP c := by
  obtain ⟨before, after, hsplit, hbefore, hc⟩ := h
  have hmem : ∀ d ∈ before, d ∈ x.clients := by
    intro d hd
    simp [hsplit, hd]
  have hcmem : c ∈ x.clients := by simp [hsplit]
  refine ⟨before, after, hclients.trans hsplit, ?_, (hip c hcmem).trans hc⟩
  intro d hd
  rw [hip d (hmem d hd)]
  exact hbefore d hd

theorem SentToOne.of_same {clientIP msg : Bytes} {r : PipeRet} {sent : List (ℕ × ℤ)}
    (hclients : y.clients = x.clients)
    (hip : ∀ d ∈ x.clients, (y.client d).ip = (x.client d).ip)
    (h : SentToOne x clientIP msg r sent) : SentToOne y clientIP msg r sent := by
  cases h with
  | inl hnone =>
    obtain ⟨hr, hsent, hall⟩ := hnone
    refine .inl ⟨hr, hsent, ?_⟩
    intro c hc
    rw [hclients] at hc
    rw [hip c hc]
    exact hall c hc
  | inr hone =>
    obtain ⟨c, ret, hfirst, hrest⟩ := hone
    exact .inr ⟨c, ret, hfirst.of_same hclients hip, hrest⟩

/- While `_clientsMtx` is held, neither the list nor the addresses change. -/
theorem Sending.of_same {l : UserPc} {sent : List (ℕ × ℤ)}
    (hsame : UserPc.locked l = true →
      y.clients = x.clients ∧ ∀ d ∈ x.clients, (y.client d).ip = (x.client d).ip)
    (h : Sending x l sent) : Sending y l sent := by
  cases l with
  | call op => exact h
  | sendAll msg rest => exact ⟨(hsame rfl).1.trans h.1, h.2⟩
  | sendOne clientIP msg c => exact ⟨h.1, h.2.of_same (hsame rfl).1 (hsame rfl).2⟩
  | unlock op r =>
    obtain ⟨hclients, hip⟩ := hsame rfl
    cases op with
    | sendToAllClients msg =>
      change SentToAll y msg r sent
      unfold SentToAll
      rw [hclients]
      exact h
    | sendToClient clientIP msg => exact SentToOne.of_same hclients hip h
    | _ => trivial
  | _ => trivial

theorem other_same {t : Tid U} {u : U} {l : UserPc} (hx : Inv S x) (ht : Tid.user u ≠ t)
    (hg : Guar S t x y) (h : Holds S (.user u) l x) (hl : UserPc.locked l = true) :
    y.clients = x.clients ∧ ∀ d ∈ x.clients, (y.client d).ip = (x.client d).ip :=
  ⟨(hg.locked _ ht (h.clientsMtx.mpr hl)).1, fun d hd => (hg.later d (hx.lt hd)).ip⟩

/-! ### The thread of the call -/

/- What a step adds to what was sent since the call. -/
def nextSent (sent : List (ℕ × ℤ)) : Event → List (ℕ × ℤ)
  | .call _ => []
  | .sent c ret => sent ++ [(c, ret)]
  | _ => sent

theorem sending_step {u : U} {l m : UserPc} {e : Event} {sent : List (ℕ × ℤ)}
    (h : Sending x l sent) (he : UserStep S u x l e y m) : Sending y m (nextSent sent e) := by
  cases he with
  | call => exact rfl
  | lockAll =>
    have hnil : sent = [] := h
    subst hnil
    exact ⟨rfl, fun p hp => by cases hp⟩
  | @sent msg c rest ret errno _ _ hok =>
    obtain ⟨hclients, hfull⟩ := h
    constructor
    · simpa [nextSent] using hclients
    · intro p hp
      cases List.mem_append.mp hp with
      | inl hp => exact hfull p hp
      | inr hp =>
        rw [List.mem_singleton.mp hp]
        exact full_of_success hok
  | @notSent msg c rest ret errno r _ _ hr hfailed =>
    obtain ⟨hclients, hfull⟩ := h
    subst hr
    obtain ⟨hpart, hresult⟩ := part_of_failure (c := c) hfailed
    exact .inr ⟨sent, c, ret, rest, rfl, hclients, hfull, hpart, hresult⟩
  | @allSent msg =>
    obtain ⟨hclients, hfull⟩ := h
    rw [List.append_nil] at hclients
    exact .inl ⟨rfl, hclients.symm, hfull⟩
  | @notFound clientIP msg _ hfind =>
    refine .inl ⟨rfl, h, ?_⟩
    intro c hc
    have hne : (x.client c).ip ≠ clientIP := by simpa using List.find?_eq_none.mp hfind c hc
    exact hne
  | @found clientIP msg c _ hfind =>
    obtain ⟨hip, before, after, hsplit, hbefore⟩ := List.find?_eq_some_iff_append.mp hfind
    have hc : (x.client c).ip = clientIP := by simpa using hip
    refine ⟨h, before, after, hsplit, ?_, hc⟩
    intro d hd
    have hne : (x.client d).ip ≠ clientIP := by simpa using hbefore d hd
    exact hne
  | @sentOne clientIP msg c ret errno =>
    obtain ⟨hnil, hfirst⟩ := h
    subst hnil
    exact .inr ⟨c, ret, hfirst, rfl, sendToClient_cases ret errno msg.length c⟩
  | _ => trivial

/-! ### Over whole runs -/

variable [DecidableEq U]

/- What user `u` has sent since it made its last call, to whom and with which result. -/
def sentSince (u : U) (tr : List (Tid U × Event)) : List (ℕ × ℤ) :=
  tr.foldl (fun sent e => if e.1 = .user u then nextSent sent e.2 else sent) []

theorem sentSince_snoc (u : U) (tr : List (Tid U × Event)) (t : Tid U) (e : Event) :
    sentSince u (tr ++ [(t, e)]) =
      if t = .user u then nextSent (sentSince u tr) e else sentSince u tr := by
  simp [sentSince]

theorem run_sending {tr : List (Tid U × Event)} {s : State U} (h : (system S).Run tr s) (u : U) :
    Sending s.shared (s.pc (.user u)) (sentSince u tr) := by
  refine (safety S).invariant (I := fun tr s =>
    Sending s.shared (s.pc (.user u)) (sentSince u tr)) ?_ ?_ h
  · intro s _ hpc
    rw [hpc]
    trivial
  · intro tr s t e y m hok ih he _ hg
    rw [sentSince_snoc, move_shared]
    by_cases ht : t = .user u
    · subst ht
      rw [if_pos rfl, move_pc]
      exact sending_step ih he.2
    · rw [if_neg ht, move_pc_of_ne s (Ne.symm ht)]
      exact ih.of_same (other_same hok.inv (Ne.symm ht) hg (hok.holds (.user u)))

/-- At the end of `sendToAllClients`, still under `_clientsMtx`: either it succeeds
and has sent once to each client of the list, in its order, and none was sent a
part only; or it fails, the last send was the first of which only a part was sent,
and the clients after it were sent nothing. At the end of `sendToClient` one send
has gone to the first client with the address, or none if there is none. A send
that fails with an error counts as complete. -/
theorem sends_in_order {tr : List (Tid U × Event)} {s : State U} (h : (system S).Run tr s)
    (u : U) :
    (∀ msg r, s.pc (.user u) = .unlock (.sendToAllClients msg) r →
      SentToAll s.shared msg r (sentSince u tr)) ∧
    (∀ clientIP msg r, s.pc (.user u) = .unlock (.sendToClient clientIP msg) r →
      SentToOne s.shared clientIP msg r (sentSince u tr)) ∧
    ∀ msgSize c, msgSize < 2 ^ 64 → Full msgSize (c, -1) := by
  have hsending := run_sending h u
  refine ⟨?_, ?_, fun msgSize c => full_of_error⟩
  · intro msg r hpc
    rw [hpc] at hsending
    exact hsending
  · intro clientIP msg r hpc
    rw [hpc] at hsending
    exact hsending

/- The only client's connection is broken; `::send` returns an error. -/
def failedSend : List Event := [.call (.sendToAllClients [65]), .tau, .sent 0 (-1), .tau]

def sentToBroken : List (Tid Unit × Event) :=
  (accepted ++ failedSend).map (Prod.mk (.user ()))

theorem exists_sentToBroken : ∃ s, (system oneThread).Run sentToBroken s ∧
    s.pc (.user ()) = .unlock (.sendToAllClients [65]) .success := by
  have h0 : (system oneThread).Run [] ⟨started, entry⟩ :=
    .init ⟨⟨_, _, fun _ => .inl rfl, rfl⟩, rfl⟩
  have hok : sendToClient (-1) [] [65].length = .success := by decide
  have h1 : (system oneThread).Run sentToBroken _ := Solo.run (i := Tid.user ()) h0
    (.cons ⟨rfl, .call (oneThread_may (.start true))⟩ <| .cons ⟨rfl, .addRemover⟩ <|
      .cons ⟨rfl, started_at 0 rfl⟩ <| .cons ⟨rfl, .call (oneThread_may (.acceptClient 0))⟩ <|
      .cons ⟨rfl, accept_at 1 rfl (by decide) rfl⟩ <| .cons ⟨rfl, .push rfl⟩ <|
      .cons ⟨rfl, .call (oneThread_may (.sendToAllClients [65]))⟩ <| .cons ⟨rfl, .lockAll rfl⟩ <|
      .cons ⟨rfl, .sent (le_refl _) (by decide) hok⟩ <| .cons ⟨rfl, .allSent⟩ .nil)
  exact ⟨_, h1, move_pc ..⟩

theorem sends_in_order_broken : ∃ s, (system oneThread).Run sentToBroken s ∧
    SentToAll s.shared [65] .success [(0, -1)] := by
  obtain ⟨s, hrun, hpc⟩ := exists_sentToBroken
  have hsent : sentSince () sentToBroken = [(0, -1)] := by decide
  have hall := (sends_in_order hrun ()).1 [65] .success hpc
  rw [hsent] at hall
  exact ⟨s, hrun, hall⟩

end OSwitch.TcpServer
