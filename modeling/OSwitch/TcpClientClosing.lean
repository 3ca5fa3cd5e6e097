import OSwitch.TcpClientObservers

/-!
# That `close` returns

`close` waits for the receive thread and the receive thread for the mutex of the
observers. Once the flag is cleared, the thread has nothing else to wait for: it
tells the observers what it has and returns.
-/

namespace OSwitch.TcpClient
open Wire StdText Trace Threads
open TcpServer (PipeRet Recv)

variable {U : Type*} {S : Setting U} {x y : Shared U}

/- Nothing is called, and the process is not terminated. -/
def Event.calm : Event → Bool
  | .call _ | .terminate => false
  | _ => true

/-! ### The receive thread -/

theorem exists_of_telling {l : ReceiverPc} (h : ReceiverPc.telling l = true) :
    ∃ p j, l = .dispatch p j := by
  cases l with
  | dispatch p j => exact ⟨p, j, rfl⟩
  | _ => cases h

theorem running_of_telling {k : ℕ} {l : ReceiverPc} (h : ReceiverHolds k x l)
    (hl : ReceiverPc.telling l = true) : x.running k = true := by
  by_contra hrun
  rcases Nat.lt_or_ge k x.nextThread with hlt | hge
  · rw [(h.running hlt).mp (Bool.eq_false_of_not_eq_true hrun)] at hl
    cases hl
  · rw [h.fresh hge] at hl
    cases hl

/- Where a thread is after it has told the observers. -/
def Publication.after : Publication → ReceiverPc
  | .serverMsg _ _ => .check
  | .serverDisconnected _ => .ret

theorem dispatch_ends {k : ℕ} {p : Publication} (hterm : x.terminated = false)
    (hrun : x.running k = true) (n : ℕ) : ∀ j, x.subscribers.length - j = n →
      ∃ es, (∀ e ∈ es, Event.calm e = true) ∧
        Solo (program S) (.receiver k) x (.dispatch p j) es x.unlock p.after := by
  induction n with
  | zero =>
    intro j hj
    have hend : x.subscribers[j]? = none := List.getElem?_eq_none (by omega)
    refine ⟨[.tau], by simp [Event.calm], ?_⟩
    cases p with
    | serverMsg bytes size => exact .cons ⟨hterm, hrun, .again hend⟩ .nil
    | serverDisconnected ret => exact .cons ⟨hterm, hrun, .finish hend⟩ .nil
  | succ n ih =>
    intro j hj
    have hlt : j < x.subscribers.length := by omega
    have ho : x.subscribers[j]? = some x.subscribers[j] := List.getElem?_eq_getElem hlt
    obtain ⟨es, hcalm, hrest⟩ := ih (j + 1) (by omega)
    cases htells : tells p x.subscribers[j] with
    | false =>
      refine ⟨.tau :: es, ?_, .cons ⟨hterm, hrun, .skip ho htells⟩ hrest⟩
      simpa [Event.calm] using hcalm
    | true =>
      refine ⟨.notified j p :: es, ?_, .cons ⟨hterm, hrun, .notify ho htells⟩ hrest⟩
      simpa [Event.calm] using hcalm

/- What a thread that returns leaves behind. -/
structure Ended (k : ℕ) (x y : Shared U) : Prop where
  terminated : y.terminated = false
  running : y.running k = false
  receiveTask : y.receiveTask = x.receiveTask

/- By itself, thread `k` comes from `l` to its end. -/
def Ends (S : Setting U) (k : ℕ) (x : Shared U) (l : ReceiverPc) : Prop :=
  ∃ es y, (∀ e ∈ es, Event.calm e = true) ∧ Solo (program S) (.receiver k) x l es y .done ∧
    Ended k x y

theorem Ends.cons {k : ℕ} {l m : ReceiverPc} {e : Event} (hterm : x.terminated = false)
    (hrun : x.running k = true) (he : ReceiverStep k x l e y m) (hcalm : Event.calm e = true)
    (h : Ends S k y m) : Ends S k x l := by
  obtain ⟨es, z, hes, hsolo, hend⟩ := h
  refine ⟨e :: es, z, ?_, .cons ⟨hterm, hrun, he⟩ hsolo,
    ⟨hend.terminated, hend.running, hend.receiveTask.trans (receiver_env he).receiveTask⟩⟩
  intro d hd
  rcases List.mem_cons.mp hd with rfl | hd
  · exact hcalm
  · exact hes d hd

theorem ends_of_ret {k : ℕ} (hterm : x.terminated = false) (hrun : x.running k = true) :
    Ends S k x .ret :=
  ⟨[.tau], x.endThread k, by simp [Event.calm], .cons ⟨hterm, hrun, .ret⟩ .nil,
    hterm, Function.update_self .., rfl⟩

theorem ends_of_check {k : ℕ} (hterm : x.terminated = false) (hrun : x.running k = true)
    (hc : x.isConnected = false) : Ends S k x .check :=
  .cons hterm hrun (.stop hc) rfl (ends_of_ret hterm hrun)

theorem ends_of_dispatch {k j : ℕ} {p : Publication} (hterm : x.terminated = false)
    (hrun : x.running k = true) (hc : x.isConnected = false) : Ends S k x (.dispatch p j) := by
  obtain ⟨es, hes, hsolo⟩ := dispatch_ends (S := S) (p := p) hterm hrun _ j rfl
  have hafter : Ends S k x.unlock p.after := by
    cases p with
    | serverMsg bytes size => exact ends_of_check hterm hrun hc
    | serverDisconnected ret => exact ends_of_ret hterm hrun
  obtain ⟨fs, z, hfs, hrest, hend⟩ := hafter
  refine ⟨es ++ fs, z, ?_, hsolo.append hrest, hend.terminated, hend.running, hend.receiveTask⟩
  intro d hd
  exact (List.mem_append.mp hd).elim (hes d) (hfs d)

theorem ends {k : ℕ} {l : ReceiverPc} (hterm : x.terminated = false) (hrun : x.running k = true)
    (hc : x.isConnected = false) (hl : l ≠ .done)
    (hfree : x.subscribersMtx = none ∨ ReceiverPc.telling l = true) : Ends S k x l := by
  have hpublish (z : Shared U) (p : Publication) (hz : z.terminated = false)
      (hzrun : z.running k = true) (hzc : z.isConnected = false) (hmtx : z.subscribersMtx = none) :
      Ends S k z (.publish p) :=
    .cons hz hzrun (.lock hmtx) rfl (ends_of_dispatch hz hzrun hzc)
  cases l with
  | check => exact ends_of_check hterm hrun hc
  | wait => exact .cons hterm hrun .timeout rfl (ends_of_check hterm hrun hc)
  | recv =>
    have hclosed : publicationOf .eof [] = .serverDisconnected
        (.failure (text "Server closed connection")) := rfl
    exact .cons hterm hrun (.closed (r := .eof) trivial hclosed) rfl
      (hpublish _ _ hterm hrun rfl (hfree.resolve_right nofun))
  | publish p => exact hpublish x p hterm hrun hc (hfree.resolve_right nofun)
  | dispatch p j => exact ends_of_dispatch hterm hrun hc
  | ret => exact ends_of_ret hterm hrun
  | done => exact absurd rfl hl

/-! ### The owner -/

/- From `join` to the end of `close`, when the thread has returned. -/
theorem owner_closes (hterm : x.terminated = false)
    (hdone : ∀ k, x.receiveTask = some k → x.running k = false) :
    ∃ es y, (∀ e ∈ es, Event.calm e = true) ∧
      Solo (program S) (.user S.owner) x .joining es y .idle := by
  have hclose (z : Shared U) (hz : z.terminated = false) :
      ∃ es y, (∀ e ∈ es, Event.calm e = true) ∧
        Solo (program S) (.user S.owner) z .closeFd es y .idle := by
    have hz' : z.closeSocket.terminated = false := by
      rw [closeSocket_eq]
      exact hz
    by_cases hheld : z.held = none
    · exact ⟨[.closed z.held false, .returned .close (.failure [])], _, by simp [Event.calm],
        .cons ⟨hz, .closeFailed (.inl hheld)⟩ <| .cons ⟨hz', .finish⟩ .nil⟩
    · exact ⟨[.closed z.held true, .tau, .returned .close .success], _, by simp [Event.calm],
        .cons ⟨hz, .closed hheld⟩ <| .cons ⟨hz', .close⟩ <| .cons ⟨hz', .finish⟩ .nil⟩
  have hjoin : ∃ z, z.terminated = false ∧
      (program S).step (.user S.owner) x .joining .tau z .closeFd := by
    cases htask : x.receiveTask with
    | none => exact ⟨x, hterm, hterm, .noThread htask⟩
    | some k =>
      exact ⟨{ x with receiveTask := none }, hterm, hterm, .join htask (hdone k htask)⟩
  obtain ⟨z, hz, hstep⟩ := hjoin
  obtain ⟨es, y, hes, hsolo⟩ := hclose z hz
  refine ⟨.tau :: es, y, ?_, .cons hstep hsolo⟩
  intro d hd
  rcases List.mem_cons.mp hd with rfl | hd
  · rfl
  · exact hes d hd

/-! ### Every run -/

variable [DecidableEq U] {tr : List (Tid U × Event)} {s : State U}

/- Only a receive thread holds the mutex of the observers. -/
theorem holder_telling (h : (system S).Run tr s) {t : Tid U}
    (ht : s.shared.subscribersMtx = some t) :
    ∃ k, ReceiverPc.telling (s.pc (.receiver k)) = true := by
  have hholds := (run_ok h).holds
  cases t with
  | user u => exact absurd ht (hholds (.user u)).subscribersMtx
  | receiver k => exact ⟨k, (hholds (.receiver k)).subscribersMtx.mp ht⟩
  | other => exact absurd ht (hholds .other)

/- The threads that `close` needs: the owner of the client and the receive threads. -/
def helps (S : Setting U) (t : Tid U) (e : Event) : Prop :=
  (t = .user S.owner ∨ ∃ k, t = .receiver k) ∧ Event.calm e = true

theorem leads_of_receiver {k : ℕ} {es : List Event} {l m : ReceiverPc} {G : State U → Prop}
    (hpc : s.pc (.receiver k) = l) (h : Solo (program S) (.receiver k) s.shared l es y m)
    (hes : ∀ e ∈ es, Event.calm e = true)
    (hrest : Leads (program S) (helps S) G (s.move (.receiver k) y m)) :
    Leads (program S) (helps S) G s :=
  h.leads rfl hpc (fun e he => ⟨.inr ⟨k, rfl⟩, hes e he⟩) hrest

theorem leads_of_done (hterm : s.shared.terminated = false)
    (hpc : s.pc (.user S.owner) = .joining)
    (hdone : ∀ k, s.shared.receiveTask = some k → s.shared.running k = false) :
    Leads (program S) (helps S) (fun s' => s'.pc (.user S.owner) = .idle) s := by
  obtain ⟨es, y, hes, hsolo⟩ := owner_closes hterm hdone
  exact hsolo.leads rfl hpc (fun e he => ⟨.inl rfl, hes e he⟩) (.here (move_pc ..))

theorem leads_of_running {k : ℕ} (hterm : s.shared.terminated = false)
    (hpc : s.pc (.user S.owner) = .joining) (hc : s.shared.isConnected = false)
    (htask : s.shared.receiveTask = some k) (hrun : s.shared.running k = true)
    (hl : s.pc (.receiver k) ≠ .done)
    (hfree : s.shared.subscribersMtx = none ∨
      ReceiverPc.telling (s.pc (.receiver k)) = true) :
    Leads (program S) (helps S) (fun s' => s'.pc (.user S.owner) = .idle) s := by
  obtain ⟨es, y, hes, hsolo, hend⟩ := ends (S := S) hterm hrun hc hl hfree
  refine leads_of_receiver rfl hsolo hes (leads_of_done hend.terminated ?_ ?_)
  · exact user_pc_of_ne nofun hpc
  · intro k' hk'
    rw [move_shared, hend.receiveTask, htask] at hk'
    cases hk'
    exact hend.running

theorem leads_idle (h : (system S).Run tr s) (hterm : s.shared.terminated = false)
    (hpc : s.pc (.user S.owner) = .joining) :
    Leads (program S) (helps S) (fun s' => s'.pc (.user S.owner) = .idle) s := by
  have hok := run_ok h
  have hclosing : UserPc.closing (s.pc (.user S.owner)) = true := by
    rw [hpc]
    rfl
  have hc := ((hok.holds (.user S.owner)).closing rfl hclosing).2
  cases htask : s.shared.receiveTask with
  | none =>
    refine leads_of_done hterm hpc ?_
    rw [htask]
    exact nofun
  | some k =>
    by_cases hrun : s.shared.running k = true
    · have hl : s.pc (.receiver k) ≠ .done := by
        intro hdone
        rw [((hok.holds (.receiver k)).running (hok.inv.running k hrun)).mpr hdone] at hrun
        cases hrun
      cases hmtx : s.shared.subscribersMtx with
      | none => exact leads_of_running hterm hpc hc htask hrun hl (.inl hmtx)
      | some t =>
        obtain ⟨j, htelling⟩ := holder_telling h hmtx
        by_cases hjk : j = k
        · rw [hjk] at htelling
          exact leads_of_running hterm hpc hc htask hrun hl (.inr htelling)
        -- thread `j` of an earlier `connectTo` is telling the observers
        · obtain ⟨p, i, hj⟩ := exists_of_telling htelling
          have hrunj := running_of_telling (hok.holds (.receiver j)) htelling
          obtain ⟨es, hes, hsolo⟩ := dispatch_ends (S := S) (p := p) hterm hrunj _ i rfl
          refine leads_of_receiver hj hsolo hes ?_
          have hne : (.receiver k : Tid U) ≠ .receiver j := fun heq => hjk (Tid.receiver.inj heq).symm
          have hsame :
              (s.move (.receiver j) s.shared.unlock p.after).pc (.receiver k) ≠ .done := by
            rw [move_pc_of_ne s hne]
            exact hl
          exact leads_of_running hterm (user_pc_of_ne nofun hpc) hc htask hrun hsame (.inl rfl)
    · refine leads_of_done hterm hpc ?_
      intro k' hk'
      rw [htask] at hk'
      cases hk'
      exact Bool.eq_false_of_not_eq_true hrun

/-- `close` returns: from wherever it waits for the receive thread it can come to its
end by steps of the receive threads and its own, in every run in which the process has
not been terminated. -/
theorem close_returns (h : (system S).Run tr s) (hterm : s.shared.terminated = false)
    (hpc : s.pc (.user S.owner) = .joining) :
    ∃ tr' s', ((system S).startingAt s).Run tr' s' ∧
      (∀ e ∈ tr', (e.1 = .user S.owner ∨ ∃ k, e.1 = .receiver k) ∧ Event.calm e.2 = true) ∧
      s'.pc (.user S.owner) = .idle :=
  (leads_idle h hterm hpc).exists_run

/- The client is connected and `close` has come to `join`. -/
def joiningEvents : List Event :=
  [.call .connectTo, .opened 0, .tau, .tau, .created 0, .connected,
    .returned .connectTo .success] ++ [.call .close, .tau]

def joiningTrace : List (Tid Unit × Event) := joiningEvents.map (Prod.mk (.user ()))

theorem exists_joining : ∃ s, (system careful).Run joiningTrace s ∧
    s.shared.terminated = false ∧ s.pc (.user ()) = .joining ∧ s.shared.running 0 = true := by
  have hclose (z : Shared Unit) : careful.may () z .close := rfl
  have h1 := Solo.run (i := Tid.user ()) (run_fresh careful)
    ((connects 0 rfl ⟨rfl, .inl rfl⟩ rfl).append
      (.cons ⟨rfl, .call (hclose _)⟩ <| .cons ⟨rfl, .disconnect rfl⟩ .nil))
  exact ⟨_, h1, rfl, move_pc .., rfl⟩

theorem close_returns_joining : ∃ s, (system careful).Run joiningTrace s ∧
    ∃ tr' s', ((system careful).startingAt s).Run tr' s' ∧ s'.pc (.user ()) = .idle := by
  obtain ⟨s, h, hterm, hpc, -⟩ := exists_joining
  obtain ⟨tr', s', h', -, hidle⟩ := close_returns (S := careful) h hterm hpc
  exact ⟨s, h, tr', s', h', hidle⟩

end OSwitch.TcpClient
