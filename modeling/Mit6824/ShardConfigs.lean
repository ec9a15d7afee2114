import Mit6824.ShardRefine

/-!
How the groups of the sharded service go from one configuration to the next.

`setConfig` only asks for a higher number. That a group never skips a configuration follows from
what its proposers know: each has read the configuration before off the log of the same group, so
the number that it proposes is at most one above the log at any later time.
-/

namespace Mit6824.ShardConfigs

open Mit6824.GoData Mit6824.Labgob Mit6824.ShardServer Mit6824.ShardReplica
open Mit6824.ShardProtocol Mit6824.ShardSystem Mit6824.ShardSteps Mit6824.ShardRefine Mit6824.Runs

variable {w : World} {g : ℕ} {p : List Op} {op : Op}

lemma published_of_set (hw : Sound w) {args : SetConfigArgs} (hop : .setConfig args ∈ w.logs g) :
    w.configs[args.config.num]? = some args.config := by
  rcases hw.origin g _ hop with hask | ⟨m, hm⟩
  · exact absurd (hw.asked _ hask) id
  · have hj := hw.justified _ hm
    obtain ⟨config, seq, client⟩ := args
    cases hj with
    | set hmov _ => exact hmov.published

/-- **A group that changes the number of its configuration adopts the next one.** -/
lemma adopts_next (hw : Sound w) (hp : p ++ [op] <+: w.logs g)
    (hne : (state g (p ++ [op])).config.num ≠ (state g p).config.num) :
    ∃ args, op = .setConfig args ∧ (state g (p ++ [op])).config = args.config ∧
      args.config.num = (state g p).config.num + 1 ∧
      w.configs[(state g p).config.num + 1]? = some args.config := by
  have hle := hw.byOne g p op hp
  rw [state_snoc] at hne hle ⊢
  by_cases hex : (state g p).Executes g op
  · rw [GroupState.apply_of_executes hex] at hne hle ⊢
    cases op with
    | setConfig args =>
      by_cases hlt : (state g p).config.num < args.config.num
      · simp only [adopt, if_pos hlt] at hle ⊢
        have hnum : args.config.num = (state g p).config.num + 1 := by omega
        have hmem : Op.setConfig args ∈ w.logs g :=
          hp.subset (List.mem_append_right p (List.mem_singleton_self _))
        have hpub := published_of_set hw hmem
        rw [hnum] at hpub
        exact ⟨args, rfl, rfl, hnum, hpub⟩
      · exact absurd (by simp only [adopt, if_neg hlt]) hne
    | _ => exact absurd rfl hne
  · exact absurd (by rw [GroupState.apply_of_not hex]) hne

/-- A configuration that is not newer leaves everything but the number of its sender. -/
lemma applyOp_stale (kv : ShardKV) {args : SetConfigArgs}
    (h : args.config.num ≤ kv.config.num ∨ kv.done args.clientId args.seqNum) :
    (kv.applyOp (.setConfig args)).config = kv.config ∧
      (kv.applyOp (.setConfig args)).store = kv.store ∧
      ∀ c, mark (kv.applyOp (.setConfig args)).clientStatusMap c =
        if c = args.clientId then max (mark kv.clientStatusMap c) args.seqNum
        else mark kv.clientStatusMap c := by
  by_cases hdone : kv.done args.clientId args.seqNum
  · have happly : kv.applyOp (.setConfig args) = kv.getClientStatus args.clientId :=
      applyOp_of_not (Or.inl hdone)
    rw [happly]
    refine ⟨rfl, rfl, fun c => ?_⟩
    show mark (touch _ _) c = _
    rw [mark_touch]
    split
    · next hc =>
      subst hc
      exact (max_eq_left hdone).symm
    · rfl
  · have hle := h.resolve_right hdone
    have hkeep : (kv.getClientStatus args.clientId).setConfig args.config =
        kv.getClientStatus args.clientId := if_neg (Nat.not_lt.mpr hle)
    have happly : kv.applyOp (.setConfig args) =
        ((kv.getClientStatus args.clientId).putClientSeqNumMap ∅).updateSeqNum
          args.clientId args.seqNum := by
      have hexec : ((kv.getClientStatus args.clientId).exec (.setConfig args)).1 =
          kv.getClientStatus args.clientId := hkeep
      rw [← hexec]
      exact applyOp_of_executes (Nat.not_le.mp hdone) id
    rw [happly]
    refine ⟨rfl, rfl, fun c => ?_⟩
    show mark (raise (merge (touch kv.clientStatusMap args.clientId) ∅) _ _) c = _
    rw [mark_raise, mark_merge, mark_merge, mark_touch, mark_touch, mark_empty, mark_empty,
      max_eq_left (Nat.zero_le _), max_eq_left (Nat.zero_le _)]
    split
    · next hc => rw [hc]
    · rfl

/-- **Configurations are adopted one by one.** In every run: a server that applies the log of its
group changes the number of its configuration only to the next one, and then has the configuration
that the controller has published under that number; a `SET_CONFIG` that is stale or repeated
leaves the configuration, the store and the numbers but for the one of its sender; and the
assertion of `changeConfig` holds. -/
theorem configs_one_by_one [Coded (ℕ × (Shard → Data) × Config × GoMap ClientId ℕ)] (x : System)
    (hr : Reaches step System.init x) :
    (∀ g p op, p ++ [op] <+: (x.groups g).log → ∀ kv, Replica g p kv →
      ((kv.applyOp op).config.num = kv.config.num ∨
        ∃ args, op = .setConfig args ∧ (kv.applyOp op).config = args.config ∧
          args.config.num = kv.config.num + 1 ∧
          x.configs[kv.config.num + 1]? = some args.config) ∧
      ∀ args, op = .setConfig args →
        (args.config.num ≤ kv.config.num ∨ kv.done args.clientId args.seqNum) →
        (kv.applyOp op).config = kv.config ∧ (kv.applyOp op).store = kv.store ∧
          ∀ c, mark (kv.applyOp op).clientStatusMap c =
            if c = args.clientId then max (mark kv.clientStatusMap c) args.seqNum
            else mark kv.clientStatusMap c) ∧
    ∀ g i, (x.server g i).proc ≠ .failed := by
  have hi : Inv x := inv_of_run hr
  refine ⟨fun g p op hp kv hkv => ⟨?_, ?_⟩, fun g i hfail => ?_⟩
  · have hkv' : Replica g (p ++ [op]) (kv.applyOp op) := hkv.applyOp op trivial
    rw [hkv.tracks.config, hkv'.tracks.config]
    by_cases hnum : (state g (p ++ [op])).config.num = (state g p).config.num
    · exact Or.inl hnum
    · exact Or.inr (adopts_next hi.sound hp hnum)
  · rintro args rfl hstale
    exact applyOp_stale kv hstale
  · have hproc := (hi.servers g i).proc
    rw [hfail] at hproc
    exact hproc

/-- Two servers of group `1` propose the first configuration. -/
def proposedTwice : List Action := List.flatten
  [[.publish ⟨1, fun _ => 1, members [1]⟩, .server 1 1 .poll, .server 1 1 .query,
      .server 1 1 .begin],
    changeConfig 1 0, [.issue 1 1 1, .request 1 1 1 0], serve 1 1]

theorem configs_one_by_one_twice :
    ∃ x, Reaches step System.init x ∧ (x.groups 1).log.length = 2 ∧
      (x.server 1 0).kv.config.num = 1 ∧ (x.server 1 0).proc ≠ .failed := by
  have hrun : (run step System.init proposedTwice).map (fun x =>
      ((x.groups 1).log.length, (x.server 1 0).kv.config.num)) = some (2, 1) := by
    decide +kernel
  obtain ⟨x, hx, hd⟩ := Option.map_eq_some_iff.mp hrun
  obtain ⟨hlen, hnum⟩ := Prod.mk.inj hd
  have hr := reaches_of_run hx
  exact ⟨x, hr, hlen, hnum, (configs_one_by_one x hr).2 1 0⟩

end Mit6824.ShardConfigs
