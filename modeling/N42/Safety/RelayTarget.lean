import N42.Conduct.Relation
import N42.Network.Script

/-!
Whom the engine asks to lead the next view: `process_timeout` takes the next leader from the current
view's validator set, `process_new_view` from that of the next view.
-/

namespace N42

open Lib EngineM

/-- The validators to which timeouts were relayed, newest first. -/
def relayTargets (log : List Effect) : List ℕ :=
  log.filterMap fun
    | .emit (.sendToValidator target (.timeout _)) true => some target
    | _ => none

namespace Engine

variable (e : Engine)

abbrev viewSet : ValidatorSet := e.validatorSetForView e.currentView

abbrev nextViewSet : ValidatorSet := e.validatorSetForView (satAdd e.currentView 1)

/-- The leader that `process_new_view` expects for the next view. -/
abbrev nextLeader : ℕ := e.leaderIndexForView (satAdd e.currentView 1)

end Engine

/-- What decides about the relay of a timeout. -/
def Engine.seat (e : Engine) : ℕ × ℕ × EpochManager :=
  (e.currentView, e.myIndex, e.epochManager)

/-- From `w` to `w'` timeouts were relayed only to validators in `P`. -/
structure Relays (P : ℕ → Prop) (w w' : World) : Prop where
  seat : w'.engine.seat = w.engine.seat
  targets : ∃ new, relayTargets w'.log = new ++ relayTargets w.log ∧ ∀ target ∈ new, P target

instance (P : ℕ → Prop) : Std.Refl (Relays P) := ⟨fun _ => ⟨rfl, [], rfl, by simp⟩⟩

instance (P : ℕ → Prop) : IsTrans World (Relays P) where
  trans _ _ _ hab hbc := by
    obtain ⟨hseat₁, new₁, h₁, hP₁⟩ := hab
    obtain ⟨hseat₂, new₂, h₂, hP₂⟩ := hbc
    refine ⟨hseat₂.trans hseat₁, new₂ ++ new₁, by rw [h₂, h₁, List.append_assoc], ?_⟩
    exact List.forall_mem_append.mpr ⟨hP₂, hP₁⟩

/-- From `w` to `w'` the log grew, but not by a relay. -/
structure Unmoved (w w' : World) : Prop where
  engine_eq : w'.engine = w.engine
  env_eq : w'.env = w.env
  targets_eq : relayTargets w'.log = relayTargets w.log

instance : Std.Refl Unmoved := ⟨fun _ => ⟨rfl, rfl, rfl⟩⟩

instance : IsTrans World Unmoved where
  trans _ _ _ hab hbc := ⟨hbc.engine_eq.trans hab.engine_eq, hbc.env_eq.trans hab.env_eq,
    hbc.targets_eq.trans hab.targets_eq⟩

theorem Unmoved.relays {P : ℕ → Prop} {w w' : World} (h : Unmoved w w') : Relays P w w' :=
  ⟨by rw [h.engine_eq], [], h.targets_eq, by simp⟩

/-- `x` relays only to `P` up to its end, or until it forms a timeout certificate. -/
def RelaysUntil [Crypto] (advance : ℕ → EngineM Unit) (P : ℕ → Prop) (x : EngineM Unit)
    (w : World) : Prop :=
  ∃ w', Relays P w w' ∧ (x w = .ok () w' ∨ (∃ err, x w = .error err w') ∨
    ∃ view next, x w = tryFormTcAndAdvance advance view next w')

section Relaying

variable [Crypto] {advance : ℕ → EngineM Unit} {P : ℕ → Prop} {w : World} {α : Type}

abbrev RelaysOnly (P : ℕ → Prop) (x : EngineM α) (w : World) : Prop :=
  Guarantee (Relays P) x w fun _ _ => True

namespace RelaysUntil

theorem of_only {x : EngineM Unit} (h : RelaysOnly P x w) : RelaysUntil advance P x w := by
  unfold RelaysOnly Guarantee at h
  cases hx : x w with
  | ok a w' => exact ⟨w', by rw [hx] at h; exact h.1, .inl hx⟩
  | error err w' => exact ⟨w', by rw [hx] at h; exact h, .inr (.inl ⟨err, hx⟩)⟩

variable {x : EngineM α} {f : α → EngineM Unit}

theorem bind_of {Q : α → World → Prop} (hx : Guarantee (Relays P) x w Q)
    (hf : ∀ a w', Relays P w w' → Q a w' → RelaysUntil advance P (f a) w') :
    RelaysUntil advance P (x >>= f) w := by
  unfold Guarantee at hx
  unfold RelaysUntil
  rw [bind_run]
  cases hrun : x w with
  | ok a w₁ =>
    rw [hrun] at hx
    obtain ⟨w₂, hrel, hend⟩ := hf a w₁ hx.1 hx.2
    exact ⟨w₂, IsTrans.trans _ _ _ hx.1 hrel, hend⟩
  | error err w₁ =>
    rw [hrun] at hx
    exact ⟨w₁, hx, .inr (.inl ⟨err, rfl⟩)⟩

theorem bind (hx : RelaysOnly P x w) (hf : ∀ a w', Relays P w w' → RelaysUntil advance P (f a) w') :
    RelaysUntil advance P (x >>= f) w :=
  bind_of hx fun a w' h _ => hf a w' h

theorem bind_check (hx : Guarantee Unmoved x w fun _ _ => True)
    (hf : ∀ a w', Unmoved w w' → RelaysUntil advance P (f a) w') :
    RelaysUntil advance P (x >>= f) w := by
  refine bind_of (Q := fun _ w' => Unmoved w w') ?_ fun a w' _ h => hf a w' h
  unfold Guarantee at hx ⊢
  cases hrun : x w with
  | ok a w' => rw [hrun] at hx; exact ⟨hx.1.relays, hx.1⟩
  | error err w' => rw [hrun] at hx; exact hx.relays

theorem engine_bind {k : Engine → EngineM Unit} (h : RelaysUntil advance P (k w.engine) w) :
    RelaysUntil advance P (engine >>= k) w := h

theorem done : RelaysUntil advance P (Pure.pure ()) w := ⟨w, Std.Refl.refl w, .inl rfl⟩

theorem ite {c : Prop} [Decidable c] {x y : EngineM Unit} (hx : c → RelaysUntil advance P x w)
    (hy : ¬ c → RelaysUntil advance P y w) : RelaysUntil advance P (if c then x else y) w := by
  split
  · next h => exact hx h
  · next h => exact hy h

theorem tryForm {view next : ℕ} : RelaysUntil advance P (tryFormTcAndAdvance advance view next) w :=
  ⟨w, Std.Refl.refl w, .inr (.inr ⟨view, next, rfl⟩)⟩

end RelaysUntil

section

omit [Crypto]

theorem push_relays {x : Effect} (h : ∀ target ∈ relayTargets [x], P target) :
    Relays P w (w.push x) :=
  ⟨rfl, relayTargets [x], List.filterMap_append (l := [x]), h⟩

theorem record_relays {x : Effect} (hx : relayTargets [x] = [] := by rfl) :
    RelaysOnly P (record x) w :=
  ⟨push_relays (by simp [hx]), trivial⟩

theorem update_relays {f : Engine → Engine} (h : (f w.engine).seat = w.engine.seat := by rfl) :
    RelaysOnly P (update f) w :=
  ⟨⟨h, [], rfl, by simp⟩, trivial⟩

theorem emit_relays {output : EngineOutput}
    (h : ∀ accepted, ∀ target ∈ relayTargets [.emit output accepted], P target) :
    RelaysOnly P (emit output) w := by
  unfold RelaysOnly Guarantee
  rw [Sound.emit_run]
  split_ifs
  · exact ⟨push_relays (h true), trivial⟩
  · exact push_relays (h false)

end

omit [Crypto] in
theorem record_unmoved {x : Effect} (hx : relayTargets [x] = [] := by rfl) :
    Guarantee Unmoved (record x) w fun _ _ => True := by
  refine ⟨⟨rfl, rfl, ?_⟩, trivial⟩
  rw [show relayTargets (x :: w.log) = relayTargets [x] ++ relayTargets w.log from
    List.filterMap_append (l := [x]), hx, List.nil_append]

def checkTimeout (e : Engine) (timeout : TimeoutMessage) : EngineM Unit := do
  verifyShare e.viewSet timeout.sender (.timeout e.currentView) timeout.signature
  verifyEmbeddedQc timeout.highQc

theorem checkTimeout_unmoved (e : Engine) (timeout : TimeoutMessage) :
    Guarantee Unmoved (checkTimeout e timeout) w fun _ _ => True := by
  refine .bind (P := fun _ _ => True) (engine_guarantee ?_) fun _ _ _ _ => ?_
  · refine .ofExcept_bind fun pk _ => ?_
    exact .ite (fun _ => .throw_bind) fun _ => record_unmoved
  · refine .ite (fun _ => engine_guarantee (.ite (fun _ => .pure trivial) fun _ => .throw_bind))
      fun _ => engine_guarantee (.ite (fun _ => .pure trivial) fun _ => ?_)
    exact .ofExcept_bind fun set _ => engine_guarantee (.ofExcept_bind fun _ _ => record_unmoved)

theorem processTimeout_run {timeout : TimeoutMessage} : processTimeout advance timeout w =
    (if timeout.view = w.engine.currentView then
      checkTimeout w.engine timeout >>= fun _ => countTimeout advance timeout
      else Pure.pure () : EngineM Unit) w := by
  have hrun : processTimeout advance timeout w =
      (if timeout.view < w.engine.currentView then Pure.pure ()
        else if w.engine.currentView < timeout.view then Pure.pure ()
        else checkTimeout w.engine timeout >>= fun _ => countTimeout advance timeout :
          EngineM Unit) w := by
    unfold checkTimeout
    rw [bind_assoc]
    rfl
  rw [hrun]
  split_ifs <;> first | rfl | omega

/-- Another validator's timeout goes to the leader that the next view has under the set of the
current one; the engine's own goes to nobody. -/
theorem processTimeout_relays {timeout : TimeoutMessage}
    (hP : timeout.sender ≠ w.engine.myIndex → P (leaderForView (satAdd w.engine.currentView 1)
      w.engine.viewSet)) :
    RelaysUntil advance P (processTimeout advance timeout) w := by
  suffices h : RelaysUntil advance P (if timeout.view = w.engine.currentView then
      checkTimeout w.engine timeout >>= fun _ => countTimeout advance timeout
      else Pure.pure ()) w by
    unfold RelaysUntil at h ⊢
    rwa [processTimeout_run]
  refine .ite (fun _ => .bind_check (checkTimeout_unmoved _ _) fun _ w₁ h₁ => ?_) fun _ => .done
  rw [← h₁.engine_eq] at hP
  refine .engine_bind ?_
  dsimp only
  split
  · exact .of_only update_relays
  · refine .bind update_relays fun _ w₃ _ => .bind (.ite (fun hrelay => ?_) fun _ => .pure trivial)
      fun _ w₄ _ => .ite (fun _ => .tryForm) fun _ => .done
    refine emit_relays fun accepted target hmem => ?_
    cases accepted with
    | false => cases hmem
    | true =>
      rw [show target = _ from List.mem_singleton.mp hmem]
      exact hP hrelay.1

/-- A timeout of the current view that another validator sent, that passes the checks and is the
first of its sender, at an engine that does not lead the next view itself. -/
structure Relayable (timeout : TimeoutMessage) (w : World) : Prop where
  native : w.engine.signingProfile.isGov5 = false
  current : timeout.view = w.engine.currentView
  checked : ∃ w', checkTimeout w.engine timeout w = .ok () w'
  fresh : (w.engine.timeoutCollector.getD (.new w.engine.currentView w.engine.viewSet.len)
    ).addVerifiedTimeout timeout.sender timeout.signature timeout.highQc ≠ none
  other : timeout.sender ≠ w.engine.myIndex
  follower : w.engine.nextLeader ≠ w.engine.myIndex
  channel : ∀ n, w.env.fate n = .done

/-- Such a timeout is relayed once, and then at most a certificate is formed. -/
theorem Relayable.relayed {timeout : TimeoutMessage} (h : Relayable timeout w)
    (hleader : leaderForView (satAdd w.engine.currentView 1) w.engine.viewSet =
      w.engine.nextLeader) :
    ∃ w', relayTargets w'.log = w.engine.nextLeader :: relayTargets w.log ∧
      (processTimeout advance timeout w = .ok () w' ∨ processTimeout advance timeout w =
        tryFormTcAndAdvance advance w.engine.currentView (satAdd w.engine.currentView 1) w') := by
  obtain ⟨w₁, hchecked⟩ := h.checked
  have hunmoved : Unmoved w w₁ := by
    have hguarantee := checkTimeout_unmoved w.engine timeout (w := w)
    rw [Guarantee, hchecked] at hguarantee
    exact hguarantee.1
  obtain ⟨collector, hfresh⟩ := Option.ne_none_iff_exists'.mp h.fresh
  have hrelay : timeout.sender ≠ w.engine.myIndex ∧ w.engine.nextLeader ≠ w.engine.myIndex ∧
      (!w.engine.signingProfile.isGov5) = true := ⟨h.other, h.follower, by simp [h.native]⟩
  let relay : Effect := .emit (.sendToValidator w.engine.nextLeader (.timeout timeout)) true
  let w₂ : World := (w₁.setEngine { w.engine with timeoutCollector := some collector }).push relay
  refine ⟨w₂, congrArg _ hunmoved.targets_eq, ?_⟩
  have hrun : processTimeout advance timeout w =
      (if collector.hasQuorum w.engine.viewSet.quorumSize then
        tryFormTcAndAdvance advance w.engine.currentView (satAdd w.engine.currentView 1)
      else Pure.pure () : EngineM Unit) w₂ := by
    rw [processTimeout_run, if_pos h.current, bind_run, hchecked]
    have hengine : ∀ k : Engine → EngineM Unit, (engine >>= k) w₁ = k w.engine w₁ :=
      fun k => congrArg (k · w₁) hunmoved.engine_eq
    have hemit : ∀ w₃ : World, w₃.env = w.env → ∀ k : Unit → EngineM Unit,
        (emit (.sendToValidator w.engine.nextLeader (.timeout timeout)) >>= k) w₃ =
          k () (w₃.push relay) := by
      intro w₃ henv k
      rw [bind_run, Sound.emit_run, henv, if_pos (h.channel _)]
    show countTimeout advance timeout w₁ = _
    unfold countTimeout relayTimeout
    rw [hengine]
    simp only [hfresh, hleader, if_pos hrelay]
    refine (hemit (w₁.setEngine { w₁.engine with timeoutCollector := some collector })
      hunmoved.env_eq _).trans ?_
    rw [hunmoved.engine_eq]
  rw [hrun]
  split_ifs
  · exact .inr rfl
  · exact .inl rfl

theorem broadcastTimeout_relays : Guarantee (Relays P) broadcastTimeout w fun timeout w' =>
    timeout.sender = w'.engine.myIndex := by
  refine engine_guarantee (.bind (P := fun _ _ => True) (engine_guarantee ?_) fun _ w₁ h₁ _ => ?_)
  · exact .bind record_relays fun _ _ _ _ => .pure trivial
  · refine .bind (emit_relays fun _ _ h => nomatch h) fun _ w₂ h₂ _ => .pure ?_
    exact congrArg (·.2.1) (h₂.seat.trans h₁.seat).symm

theorem onTimeout_relays : RelaysUntil advance (fun _ => False) (onTimeout advance) w := by
  refine .engine_bind (.ite (fun _ => ?_) fun _ => .ite (fun _ => ?_) fun _ => ?_)
  · exact .bind update_relays fun _ _ _ => .done
  · rw [bind_pure_unit]
    refine .bind (.bind broadcastTimeout_relays fun _ _ _ _ => .pure trivial) fun _ w₁ _ => ?_
    refine .engine_bind ?_
    split
    · exact .done
    · exact .ite (fun _ => .tryForm) fun _ => .done
  · refine .bind update_relays fun _ w₁ _ => ?_
    refine .bind_of broadcastTimeout_relays fun own w₂ _ hown => ?_
    exact processTimeout_relays fun hother => hother hown

end Relaying

section Runs

open Symbolic

/-- Validator 1 in a view of epoch 0, whose last view is 3, with a fifth validator about to
join. -/
def joiningEngine (view : ℕ) : Engine :=
  Engine.start 1 (secret 1)
    { EpochManager.fromEpochWithHistory quadSet 3 0 8 with
      nextSet := some ⟨(List.range 5).map validator, 1, by decide⟩ }
    .native { RoundState.new with currentView := view }

end Runs

end N42
