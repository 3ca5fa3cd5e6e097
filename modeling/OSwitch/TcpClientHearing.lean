import OSwitch.TcpClientLifetime

/-!
# Whether a connected client hears

`connectTo` creates the receive thread before it sets `_isConnected`, which the
thread reads first. A thread that is faster returns at once: the client is
connected and receives nothing until it is closed.
-/

namespace OSwitch.TcpClient
open Wire StdText Trace Threads
open TcpServer (PipeRet Recv)

variable {U : Type*} {S : Setting U} {x y : Shared U}

def Event.hears : Event → Bool
  | .received _ _ _ => true
  | _ => false

/- Thread `k` has received nothing. -/
def Silent (k : ℕ) (tr : List (Tid U × Event)) : Prop :=
  ∀ e, (.receiver k, e) ∈ tr → Event.hears e = false

/- In the loop, and not on the way out of it. -/
def ReceiverPc.inLoop : ReceiverPc → Bool
  | .check | .wait | .recv | .publish (.serverMsg _ _) | .dispatch (.serverMsg _ _) _ => true
  | _ => false

def ReceiverPc.returned : ReceiverPc → Bool
  | .ret | .done => true
  | _ => false

/- Where the thread of a `connectTo` may be before the flag is set. -/
def ReceiverPc.early : ReceiverPc → Bool
  | .check | .ret | .done => true
  | _ => false

/-! ### One step of the thread -/

theorem silent_snoc {k : ℕ} {tr : List (Tid U × Event)} {t : Tid U} {e : Event}
    (h : Silent k tr) (he : t = .receiver k → Event.hears e = false) :
    Silent k (tr ++ [(t, e)]) := by
  intro d hd
  rcases List.mem_append.mp hd with hd | hd
  · exact h d hd
  · cases List.mem_singleton.mp hd
    exact he rfl

/- While the flag is not set, the thread can only leave. -/
theorem early_step {k : ℕ} {l m : ReceiverPc} {e : Event} (hc : x.isConnected = false)
    (hl : ReceiverPc.early l = true) (he : ReceiverStep k x l e y m) :
    ReceiverPc.early m = true ∧ Event.hears e = false := by
  cases he with
  | check hflag =>
    rw [hc] at hflag
    cases hflag
  | stop | ret => exact ⟨rfl, rfl⟩
  | _ => cases hl

/- While it is set, the thread stays in the loop. -/
theorem inLoop_step {k : ℕ} {l m : ReceiverPc} {e : Event} (hl : ReceiverPc.inLoop l = true)
    (hc : y.isConnected = true) (he : ReceiverStep k x l e y m) :
    ReceiverPc.inLoop m = true := by
  cases he with
  | stop hflag =>
    rw [hflag] at hc
    cases hc
  | closed => cases hc
  | lock =>
    rename_i p _
    cases p with
    | serverMsg => rfl
    | serverDisconnected => cases hl
  | skip | notify =>
    rename_i p _ _ _ _
    cases p with
    | serverMsg => rfl
    | serverDisconnected => cases hl
  | finish | ret => cases hl
  | _ => rfl

theorem returned_step {k : ℕ} {l m : ReceiverPc} {e : Event}
    (hl : ReceiverPc.returned l = true) (he : ReceiverStep k x l e y m) :
    ReceiverPc.returned m = true ∧ Event.hears e = false ∧
      y.isConnected = x.isConnected := by
  cases he with
  | ret => exact ⟨rfl, rfl, rfl⟩
  | _ => cases hl

/- A thread that does not own the client sends and subscribes. -/
theorem guest_step {u : U} {l m : UserPc} {e : Event} (hu : u ≠ S.owner)
    (h : UserHolds S u x l) (he : UserStep S u x l e y m) :
    y.isConnected = x.isConnected ∧ Event.hears e = false := by
  have hfree := not_owned h.owned hu
  cases he with
  | call | send | subscribe | finish => exact ⟨rfl, rfl⟩
  | _ => cases hfree

/-! ### The thread of the last `connectTo` -/

/- What is known of the thread that `_receiveTask` points to: nothing has been
received by a thread to come, the thread of a `connectTo` that runs has not begun,
and one of a connected client is in its loop or has never heard anything. -/
structure Hearing (tr : List (Tid U × Event)) (x : Shared U) (l : UserPc)
    (pcs : ℕ → ReceiverPc) : Prop where
  new : ∀ k, x.nextThread ≤ k → Silent k tr
  created : l = .created → ∀ k, x.receiveTask = some k →
    Silent k tr ∧ ReceiverPc.early (pcs k) = true
  connected : x.isConnected = true → ∀ k, x.receiveTask = some k →
    ReceiverPc.inLoop (pcs k) = true ∨ Silent k tr ∧ ReceiverPc.returned (pcs k) = true

/- A step that is no receiver's. -/
theorem Hearing.other {tr : List (Tid U × Event)} {l m : UserPc} {pcs : ℕ → ReceiverPc}
    {t : Tid U} {e : Event} (h : Hearing tr x l pcs) (ht : ∀ k, t ≠ .receiver k)
    (hnext : y.nextThread = x.nextThread) (htask : y.receiveTask = x.receiveTask)
    (hc : y.isConnected = true → x.isConnected = true) (hm : m = .created → l = .created) :
    Hearing (tr ++ [(t, e)]) y m pcs := by
  have hsilent (k : ℕ) (hk : Silent k tr) : Silent k (tr ++ [(t, e)]) :=
    silent_snoc hk fun heq => absurd heq (ht k)
  refine ⟨?_, ?_, ?_⟩
  · intro k hk
    rw [hnext] at hk
    exact hsilent k (h.new k hk)
  · intro hl k hk
    rw [htask] at hk
    obtain ⟨hnone, hearly⟩ := h.created (hm hl) k hk
    exact ⟨hsilent k hnone, hearly⟩
  · intro hy k hk
    rw [htask] at hk
    rcases h.connected (hc hy) k hk with hloop | ⟨hnone, hreturned⟩
    · exact .inl hloop
    · exact .inr ⟨hsilent k hnone, hreturned⟩

theorem hearing_owner {tr : List (Tid U × Event)} {l m : UserPc} {pcs : ℕ → ReceiverPc}
    {e : Event} (hd : Disciplined x l) (hpcs : ∀ k, ReceiverHolds k x (pcs k))
    (h : Hearing tr x l pcs) (he : UserStep S S.owner x l e y m) :
    Hearing (tr ++ [(.user S.owner, e)]) y m pcs := by
  have hsilent (k : ℕ) (hk : Silent k tr) : Silent k (tr ++ [(.user S.owner, e)]) :=
    silent_snoc hk nofun
  cases he with
  | create =>
    refine ⟨fun k hk => hsilent k (h.new k (Nat.le_of_succ_le hk)), ?_, ?_⟩
    · intro _ k hk
      cases hk
      refine ⟨hsilent _ (h.new _ (Nat.le_refl _)), ?_⟩
      rw [(hpcs x.nextThread).fresh (Nat.le_refl _)]
      rfl
    · intro hc
      exact absurd (hd.threadless rfl) (hd.connected hc).1
  | connected =>
    refine ⟨fun k hk => hsilent k (h.new k hk), nofun, ?_⟩
    intro _ k hk
    obtain ⟨hnone, hearly⟩ := h.created rfl k hk
    cases hpc : pcs k with
    | check => exact .inl rfl
    | ret | done => exact .inr ⟨hsilent k hnone, rfl⟩
    | _ =>
      rw [hpc] at hearly
      cases hearly
  | join =>
    exact ⟨fun k hk => hsilent k (h.new k hk), nofun, fun _ => nofun⟩
  | closed | closeFailed =>
    rw [closeSocket_eq]
    exact h.other nofun rfl rfl id nofun
  | disconnect => exact h.other nofun rfl rfl nofun nofun
  | _ => exact h.other nofun rfl rfl id nofun

theorem hearing_receiver {tr : List (Tid U × Event)} {l : UserPc} {pcs : ℕ → ReceiverPc}
    {j : ℕ} {m : ReceiverPc} {e : Event} (hx : Inv x) (hd : Disciplined x l)
    (hrun : x.running j = true) (h : Hearing tr x l pcs)
    (he : ReceiverStep j x (pcs j) e y m) :
    Hearing (tr ++ [(.receiver j, e)]) y l (Function.update pcs j m) := by
  have henv := receiver_env he
  have hj := hd.running j hrun
  refine ⟨?_, ?_, ?_⟩
  · intro k hk
    rw [henv.nextThread] at hk
    refine silent_snoc (h.new k hk) ?_
    intro heq
    cases heq
    exact absurd (hx.running j hrun) (Nat.not_lt.mpr hk)
  · intro hl k hk
    rw [henv.receiveTask, hj] at hk
    cases hk
    obtain ⟨hnone, hearly⟩ := h.created hl j hj
    have hc : x.isConnected = false := by
      apply Bool.eq_false_of_not_eq_true
      intro hc
      have hflag := (hd.connected hc).2
      rw [hl] at hflag
      cases hflag
    obtain ⟨hm, hevent⟩ := early_step hc hearly he
    rw [Function.update_self]
    exact ⟨silent_snoc hnone fun _ => hevent, hm⟩
  · intro hy k hk
    rw [henv.receiveTask, hj] at hk
    cases hk
    rw [Function.update_self]
    rcases h.connected (henv.isConnected hy) j hj with hloop | ⟨hnone, hreturned⟩
    · exact .inl (inLoop_step hloop hy he)
    · obtain ⟨hm, hevent, -⟩ := returned_step hreturned he
      exact .inr ⟨silent_snoc hnone fun _ => hevent, hm⟩

/-! ### Every run -/

variable [DecidableEq U] {tr : List (Tid U × Event)} {s : State U}

def receivers (s : State U) (k : ℕ) : ReceiverPc := s.pc (.receiver k)

theorem receivers_move {t : Tid U} (ht : ∀ k, t ≠ .receiver k) (m : Pc t) :
    receivers (s.move t y m) = receivers s :=
  funext fun k => move_pc_of_ne s (ht k).symm y m

theorem receivers_update (j : ℕ) (m : ReceiverPc) :
    receivers (s.move (.receiver j) y m) = Function.update (receivers s) j m := by
  funext k
  by_cases hk : k = j
  · subst hk
    rw [Function.update_self]
    exact move_pc ..
  · rw [Function.update_of_ne hk]
    exact move_pc_of_ne s (fun heq => hk (Tid.receiver.inj heq)) y m

theorem run_hearing (hno : ¬S.reconnects) (h : (system S).Run tr s) :
    Hearing tr s.shared (s.pc (.user S.owner)) (receivers s) := by
  refine (safety S).invariant
    (I := fun tr s => Hearing tr s.shared (s.pc (.user S.owner)) (receivers s)) ?_ ?_ h
  · rintro s ⟨descriptors, -, hs⟩ hpc
    rw [hs, hpc]
    exact ⟨fun _ _ _ => nofun, nofun, nofun⟩
  · intro tr s t e y m hs ih he _ hg
    have hd := (hs.holds (.user S.owner)).disciplined rfl hno
    by_cases ht : t = .user S.owner
    · subst ht
      rw [move_pc, receivers_move (t := .user S.owner) nofun]
      exact hearing_owner hd (fun k => hs.holds (.receiver k)) ih he.2
    · have henv := hg.env ht
      rw [move_pc_of_ne s (Ne.symm ht)]
      cases t with
      | user u =>
        rw [receivers_move (t := .user u) nofun]
        exact ih.other nofun henv.nextThread henv.receiveTask henv.isConnected id
      | receiver j =>
        rw [receivers_update]
        exact hearing_receiver hs.inv hd he.2.1 ih he.2.2
      | other =>
        rw [receivers_move (t := .other) nofun]
        exact ih.other nofun henv.nextThread henv.receiveTask henv.isConnected id

/- Every thread that runs is on its way out, and the flag is set. -/
def Deaf (s : State U) : Prop :=
  s.shared.isConnected = true ∧
    ∀ k, s.shared.running k = true → ReceiverPc.returned (s.pc (.receiver k)) = true

theorem deaf_step {s' : State U} {t : Tid U} {e : Event} (h : (system S).Run tr s) (hs : Deaf s)
    (ht : t ≠ .user S.owner) (he : (system S).step s (t, e) s') :
    Deaf s' ∧ Event.hears e = false := by
  obtain @⟨t, e, y, m, he⟩ := he
  have hok := run_ok h
  have henv := ((safety S).step t _ _ e y m hok.inv (hok.holds t) he).2.2.env ht
  have hquiet : y.isConnected = s.shared.isConnected ∧ Event.hears e = false := by
    cases t with
    | user u => exact guest_step (fun hu => ht (by rw [hu])) (hok.holds (.user u)) he.2
    | receiver j =>
      obtain ⟨-, hevent, hc⟩ := returned_step (hs.2 j he.2.1) he.2.2
      exact ⟨hc, hevent⟩
    | other => cases he.2 <;> exact ⟨rfl, rfl⟩
  refine ⟨⟨hquiet.1.trans hs.1, ?_⟩, hquiet.2⟩
  intro k hk
  by_cases hkt : t = .receiver k
  · subst hkt
    rw [move_pc]
    exact (returned_step (hs.2 k he.2.1) he.2.2).1
  · rw [move_pc_of_ne s (Ne.symm hkt)]
    exact hs.2 k (henv.running k hk)

theorem deaf_run {tr' : List (Tid U × Event)} {s' : State U} (h : (system S).Run tr s)
    (hs : Deaf s) (h' : ((system S).startingAt s).Run tr' s')
    (howner : ∀ e ∈ tr', e.1 ≠ .user S.owner) :
    Deaf s' ∧ ∀ e ∈ tr', Event.hears e.2 = false := by
  induction h' with
  | init heq =>
    cases heq
    exact ⟨hs, nofun⟩
  | @snoc tr' s₁ e s₂ hrun he ih =>
    obtain ⟨hs₁, hsilent⟩ := ih fun d hd => howner d (List.mem_append_left _ hd)
    have hlast := howner e (List.mem_append_right _ (List.mem_singleton_self e))
    obtain ⟨hs₂, hevent⟩ := deaf_step (h.append hrun) hs₁ hlast he
    refine ⟨hs₂, ?_⟩
    intro d hd
    rcases List.mem_append.mp hd with hd | hd
    · exact hsilent d hd
    · rw [List.mem_singleton.mp hd]
      exact hevent

/-- A client that is connected has a thread that is in its loop, or its thread has
never received anything and nothing is received until the owner of the client acts. -/
theorem hears_or_deaf (hno : ¬S.reconnects) (h : (system S).Run tr s)
    (hc : s.shared.isConnected = true) : ∃ k, s.shared.receiveTask = some k ∧
      (s.shared.running k = true ∧ ReceiverPc.inLoop (s.pc (.receiver k)) = true ∨
        Silent k tr ∧ ∀ tr' s', ((system S).startingAt s).Run tr' s' →
          (∀ e ∈ tr', e.1 ≠ .user S.owner) →
          s'.shared.isConnected = true ∧ ∀ e ∈ tr', Event.hears e.2 = false) := by
  have hd := run_disciplined hno h
  have hok := run_ok h
  obtain ⟨k, hk⟩ := Option.ne_none_iff_exists'.mp (hd.connected hc).1
  refine ⟨k, hk, ?_⟩
  rcases (run_hearing hno h).connected hc k hk with hloop | ⟨hsilent, hreturned⟩
  · left
    refine ⟨?_, hloop⟩
    by_contra hrun
    have hlt : k < s.shared.nextThread := Nat.lt_of_succ_le (hok.inv.task k hk).le
    have hdone := ((hok.holds (.receiver k)).running hlt).mp (Bool.eq_false_of_not_eq_true hrun)
    rw [receivers, hdone] at hloop
    cases hloop
  · right
    have hdeaf : Deaf s := by
      refine ⟨hc, fun k' hk' => ?_⟩
      have htask := hd.running k' hk'
      rw [hk] at htask
      cases htask
      exact hreturned
    refine ⟨hsilent, fun tr' s' h' howner => ?_⟩
    obtain ⟨hs', hnone⟩ := deaf_run h hdeaf h' howner
    exact ⟨hs'.1, hnone⟩

/- The thread looks at the flag before `connectTo` has set it. -/
def overtaken : List (Tid Unit × Event) :=
  [(.user (), .call .connectTo), (.user (), .opened 0), (.user (), .tau), (.user (), .tau),
    (.user (), .created 0), (.receiver 0, .tau), (.receiver 0, .tau), (.user (), .connected),
    (.user (), .returned .connectTo .success)]

theorem exists_overtaken : ∃ s, (system careful).Run overtaken s ∧
    s.shared.isConnected = true ∧ s.shared.receiveTask = some 0 ∧ s.pc (.receiver 0) = .done := by
  have hmay : careful.may () (.start fun _ => none) .connectTo := ⟨rfl, .inl rfl⟩
  have h1 := Solo.run (i := Tid.user ()) (run_fresh careful)
    (.cons ⟨rfl, .call hmay⟩ <| .cons ⟨rfl, @UserStep.socket _ _ _ _ 0 rfl⟩ <|
      .cons ⟨rfl, .resolved⟩ <| .cons ⟨rfl, .connect⟩ <| .cons ⟨rfl, .create⟩ .nil)
  have h2 := Solo.run_at (i := Tid.receiver 0) h1 rfl (stops rfl rfl rfl)
  have h3 := Solo.run_at (i := Tid.user ()) h2 (user_pc_of_ne nofun (move_pc ..))
    (.cons ⟨rfl, .connected⟩ <| .cons ⟨rfl, .opened⟩ .nil)
  exact ⟨_, h3, rfl, rfl, rfl⟩

theorem hears_or_deaf_overtaken : ∃ s, (system careful).Run overtaken s ∧
    s.shared.isConnected = true ∧ ∀ tr' s', ((system careful).startingAt s).Run tr' s' →
      (∀ e ∈ tr', e.1 ≠ .user ()) → ∀ e ∈ tr', Event.hears e.2 = false := by
  obtain ⟨s, h, hc, htask, hdone⟩ := exists_overtaken
  refine ⟨s, h, hc, fun tr' s' h' howner => ?_⟩
  obtain ⟨k, hk, hloop | ⟨-, hdeaf⟩⟩ := hears_or_deaf (S := careful) id h hc
  · rw [htask] at hk
    cases hk
    rw [hdone] at hloop
    cases hloop.2
  · exact (hdeaf tr' s' h' howner).2

end OSwitch.TcpClient
