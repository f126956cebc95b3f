import N42.Safety.Agreement

/-!
No honest engine is pushed to a view that no honest validator has come close to.
-/

namespace N42

open Lib List

section ViewEntry

variable [Crypto] {ι : Type} [DecidableEq ι] {d : Deployment ι} {set : ValidatorSet}
  {h : List (ι × Effect)}

/-- At some point of the history the running engine of node `j` was in view `v`. -/
def Deployment.WasIn (d : Deployment ι) (h : List (ι × Effect)) (j : ι) (v : ℕ) : Prop :=
  ∃ log, log <:+ project j h ∧ (∃ core, .boot core ∈ log) ∧ (coreOf (d.cfg j) log).view = v

theorem Valid.view_of_release {cfg : NodeConfig} {log : List Effect} {item : Item}
    (hv : Valid cfg (.release item :: log)) (hitem : ∀ view, item ≠ .newView view) :
    item.view = (coreOf cfg log).view := by
  have hrule : ReleaseRule cfg.signingProfile log (coreOf cfg log) item := hv.rule_of_cons
  cases item with
  | proposal view blockHash changes => exact hrule.1
  | vote view blockHash => exact hrule.2.1
  | commitVote view blockHash changesHash => exact hrule.2.1
  | timeout view => exact hrule
  | newView view => exact absurd rfl (hitem view)

def Claim.view? : Claim → Option ℕ
  | .first view _ => some view
  | .second view _ => some view
  | .timeout view => some view
  | .newView _ => none

theorem wasIn_of_claimed {net : Net ι} (hnet : net.Reachable d) (hs : h <:+ net.history) {j : ι}
    {claim : Claim} {v : ℕ} (hview : claim.view? = some v) (hc : Claimed (project j h) claim) :
    d.WasIn h j v := by
  obtain ⟨item, rfl, hmem⟩ := hc
  obtain ⟨new, old, hsplit⟩ := append_of_mem hmem
  have hcut : .release item :: old <:+ project j h := hsplit ▸ suffix_append _ _
  have hvalid : Valid (d.cfg j) (.release item :: old) :=
    (valid_project (hnet.inv.lawful.of_suffix hs) j).of_suffix hcut
  have hlog : .release item :: old <:+ (net.node j).log := by
    rw [hnet.inv.log_eq]
    exact hcut.trans (project_suffix hs)
  have hbooted := (hnet.inv.nodes j).started.before _ _ hlog (by simp)
  have hitem : item.view = (coreOf (d.cfg j) old).view := by
    apply hvalid.view_of_release
    rintro view rfl
    cases hview
  refine ⟨old, (suffix_cons _ _).trans hcut, hbooted, hitem.symm.trans ?_⟩
  cases item with
  | newView view => cases hview
  | _ => exact Option.some.inj hview

omit [Crypto] in
theorem Certificate.Attests.view? {cert : Certificate} {claim : Claim} (ha : cert.Attests claim) :
    claim.view? = some cert.view := by
  cases ha <;> rfl

theorem wasIn_of_accept (hfix : d.FixedSet set) {net : Net ι} (hnet : net.Reachable d)
    (hs : h <:+ net.history) {i : ι} {cert : Certificate} {used : ValidatorSet}
    {known : Option ValidatorSet} (hacc : .accept cert used known ∈ project i h) :
    ∃ j k, set.keyAt k = some (d.key j) ∧ d.WasIn h j cert.view := by
  have hl := hnet.inv.lawful.of_suffix hs
  obtain ⟨claim, hattests, hb⟩ := backs_of_mem_accept hfix hl hacc
  obtain ⟨j, k, hkey, hclaimed⟩ := hfix.honest_of_backs hb
  exact ⟨j, k, hkey, wasIn_of_claimed hnet hs hattests.view? hclaimed⟩

theorem honest_reporter (hfix : d.FixedSet set) (hl : Lawful (NetRule d) h) {i : ι} {view : ℕ}
    {reporters : List ℕ} (hnodup : reporters.Nodup) (hmany : set.faultTolerance < reporters.length)
    (hshares : ∀ k ∈ reporters, ∃ s, .share s k (.timeout view) ∈ project i h) :
    ∃ j k, set.keyAt k = some (d.key j) ∧ Claimed (project j h) (.timeout view) := by
  obtain ⟨faulty, hcard, hhonest⟩ := hfix.faulty
  rw [← toFinset_card_of_nodup hnodup] at hmany
  obtain ⟨k, hk, hgood⟩ := Finset.exists_mem_notMem_of_card_lt_card (hcard.trans_lt hmany)
  obtain ⟨s, hshare⟩ := hshares k (mem_toFinset.mp hk)
  obtain ⟨pk, hpk⟩ := hfix.keyAt_of_share hl hshare
  obtain ⟨hlt, -⟩ := ValidatorSet.keyAt_eq_some.mp hpk
  obtain ⟨j, hkey⟩ := hhonest k hlt hgood
  exact ⟨j, k, hkey, hfix.claimed_of_share hl hshare hkey⟩

/-- Whenever an honest engine enters a view `w`, some honest validator was in view `w - 1`
or a later one before. -/
theorem view_entry_validity (hfix : d.FixedSet set) {net : Net ι} (hnet : net.Reachable d) {i : ι}
    {w : ℕ} {new old : List (ι × Effect)} (hsplit : net.history = new ++ (i, .enter w) :: old) :
    ∃ j k, set.keyAt k = some (d.key j) ∧ ∃ v, w - 1 ≤ v ∧ d.WasIn old j v := by
  have hs : (i, .enter w) :: old <:+ net.history := hsplit ▸ suffix_append _ _
  have hold : old <:+ net.history := (suffix_cons _ _).trans hs
  have hl := hnet.inv.lawful.of_suffix hold
  obtain ⟨⟨-, -, hcause⟩, -⟩ := (hnet.inv.lawful.of_suffix hs).rule_of_cons
  rcases hcause with ⟨qc, ⟨cert, used, known, hacc, hqc⟩, hle⟩ | ⟨tc, used, known, hacc, hle⟩ |
    ⟨s, reporters, hnodup, hmany, ⟨index, hshare⟩, hshares⟩
  · obtain ⟨j, k, hkey, hwas⟩ := wasIn_of_accept hfix hnet hold hacc
    have hview : cert.view = qc.view := by
      cases cert <;> cases hqc <;> rfl
    exact ⟨j, k, hkey, cert.view, by omega, hwas⟩
  · obtain ⟨j, k, hkey, hwas⟩ := wasIn_of_accept hfix hnet hold hacc
    exact ⟨j, k, hkey, tc.view, by omega, hwas⟩
  · obtain rfl := hfix.set_of_share hl hshare
    obtain ⟨j, k, hkey, hclaimed⟩ := honest_reporter hfix hl hnodup hmany hshares
    exact ⟨j, k, hkey, w, by omega, wasIn_of_claimed hnet hold rfl hclaimed⟩

end ViewEntry

section FourValidators

open Symbolic

theorem quadCommit_enters :
    (netRun (quad .native 2) .down quadCommit).any (fun net =>
      2 ∈ enteredViews (net.node ⟨1, by decide⟩).log) = true := by decide +kernel

/-- Validator 1 enters view 2 once its block is committed. -/
theorem view_entry_validity_of_quadCommit :
    ∃ (net : Net {k : Fin 4 // k ≠ 2}) (new old : List ({k : Fin 4 // k ≠ 2} × Effect)),
      net.Reachable (quad .native 2) ∧
      net.history = new ++ (⟨1, by decide⟩, .enter 2) :: old ∧
      ∃ j k, quadSet.keyAt k = some ((quad .native 2).key j) ∧
        ∃ v, 1 ≤ v ∧ (quad .native 2).WasIn old j v := by
  obtain ⟨net, hreach, hcheck⟩ := exists_of_netRun (quad_keys .native 2) quadCommit_enters
  have henter := mem_enteredViews (of_decide_eq_true hcheck)
  rw [hreach.inv.log_eq, mem_project] at henter
  obtain ⟨new, old, hsplit⟩ := append_of_mem henter
  exact ⟨net, new, old, hreach, hsplit,
    view_entry_validity (quad_fixedSet .native 2) hreach hsplit⟩

end FourValidators

end N42
