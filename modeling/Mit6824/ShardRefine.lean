import Mit6824.ShardCalls

/-!
The sharded service is an instance of the protocol between the logs: every action of the system
leaves the world alone or is one event that the rules allow.
-/

namespace Mit6824.ShardRefine

open Mit6824.GoData Mit6824.Labgob Mit6824.ShardServer Mit6824.ShardReplica
open Mit6824.ShardProtocol Mit6824.ShardSystem Mit6824.ShardSteps Mit6824.Runs World Function

def world (x : System) : World := ⟨x.configs, fun g => (x.groups g).log, x.asked, x.issued⟩

def event (x : System) : Action → Option Event
  | .publish config => some (.publish config)
  | .invoke clientId request => some (.ask ((x.clerks clientId).next clientId request))
  | .commit gid i => ((x.groups gid).started[i]?).map (.commit gid)
  | .issue gid i o =>
    let sv := x.server gid i
    (sv.proc.issue gid (sv.kv.seqNum + 1) sv.kv.clientId o).map fun t => .issue t.1
  | _ => none

/-- The condition holds of the event of the action, if it is one. -/
def OnEvents (P : World → Event → Prop) (x : System) (act : Action) : Prop :=
  ∀ ev ∈ event x act, P (world x) ev

instance (P : World → Event → Prop) [∀ w ev, Decidable (P w ev)] (x : System) (act : Action) :
    Decidable (OnEvents P x act) := inferInstanceAs (Decidable (∀ ev ∈ event x act, _))

/-- The operations of a clerk are open, or done at some group. -/
structure ClerkOk (w : World) (n : ℕ) (ck : Clerk) : Prop where
  open_ : ∀ op ∈ ck.open_, op ∈ w.asked ∧ op.clientId = .clerk n
  numbers : ∀ m, 0 < m → m ≤ ck.seqNum →
    (∃ g, w.Acked g (.clerk n) m) ∨ ∃ op ∈ ck.open_, op.seqNum = m

/-- What is called was asked for or issued to the group, and its handler knows what it says. -/
structure CallOk (w : World) (sv : Server) (call : Call) : Prop where
  rule : w.Rule (.commit call.gid call.op)
  stage : StageOk w call.gid sv call.op call.stage

variable {x x' : System} {w w' : World} {g i : ℕ} {sv sv' : Server}

lemma ClerkOk.later {n : ℕ} {ck : Clerk} (h : ClerkOk w n ck) (hl : Later w w') :
    ClerkOk w' n ck := by
  refine ⟨fun op hop => ⟨hl.asked op (h.open_ op hop).1, (h.open_ op hop).2⟩, fun m h0 hm => ?_⟩
  refine (h.numbers m h0 hm).imp_left ?_
  rintro ⟨g, hg⟩
  exact ⟨g, hl.acked hg⟩

lemma CallOk.later {call : Call} (h : CallOk w sv call) (hl : Later w w') (hf : Forth sv sv') :
    CallOk w' sv' call := ⟨hl.rule h.rule, h.stage.later hl hf⟩

lemma next_spec (ck : Clerk) (n : ℕ) (request : Request) :
    (ck.next n request).clientId = .clerk n ∧ (ck.next n request).seqNum = ck.seqNum + 1 ∧
      IsAsked (ck.next n request) := by
  cases request <;> exact ⟨rfl, rfl, ⟨n, rfl⟩, Nat.succ_pos _⟩

lemma ClerkOk.invoke {n : ℕ} {ck : Clerk} (h : ClerkOk w n ck) (request : Request) :
    ClerkOk (w.next (.ask (ck.next n request))) n
      ⟨ck.seqNum + 1, ck.open_ ++ [ck.next n request]⟩ := by
  obtain ⟨hc, hs, -⟩ := next_spec ck n request
  have h' := h.later (later_next w (.ask (ck.next n request)))
  refine ⟨fun op hop => ?_, fun m h0 hm => ?_⟩
  · rcases List.mem_append.mp hop with hop | hop
    · exact h'.open_ op hop
    · rw [List.mem_singleton.mp hop]
      exact ⟨List.mem_append_right _ (by simp), hc⟩
  · rcases Nat.lt_or_eq_of_le hm with hlt | rfl
    · refine (h'.numbers m h0 (Nat.le_of_lt_succ hlt)).imp_right ?_
      rintro ⟨op, hop, hseq⟩
      exact ⟨op, List.mem_append_left _ hop, hseq⟩
    · exact Or.inr ⟨_, List.mem_append_right _ (by simp), hs⟩

lemma ClerkOk.return {n : ℕ} {ck : Clerk} {op : Op} (h : ClerkOk w n ck)
    (hc : op.clientId = .clerk n) (hack : w.Acked g op.clientId op.seqNum) :
    ClerkOk w n { ck with open_ := ck.open_.erase op } := by
  refine ⟨fun op' hop => h.open_ op' (List.mem_of_mem_erase hop), fun m h0 hm => ?_⟩
  rcases h.numbers m h0 hm with hdone | ⟨op', hop, rfl⟩
  · exact Or.inl hdone
  · by_cases heq : op' = op
    · exact Or.inl ⟨g, by rw [heq, ← hc]; exact hack⟩
    · exact Or.inr ⟨op', (List.mem_erase_of_ne heq).mpr hop, rfl⟩

lemma logs_update (x : System) (g : ℕ) (gr : Group) :
    (fun g' => (update x.groups g gr g').log) = update (fun g' => (x.groups g').log) g gr.log := by
  funext g'
  by_cases hg : g' = g
  · rw [hg, update_self, update_self]
  · rw [update_of_ne hg, update_of_ne hg]

lemma world_update (x : System) (g : ℕ) {gr : Group} (calls : List Call)
    (hlog : gr.log = (x.groups g).log) :
    world { x with groups := update x.groups g gr, calls := calls } = world x := by
  unfold world
  dsimp only
  rw [logs_update, hlog, update_eq_self]

lemma world_commit (x : System) (g : ℕ) (op : Op) (started : List Op) :
    let gr := x.groups g
    world { x with
      groups := update x.groups g { gr with log := gr.log ++ [op], started := started } } =
      (world x).next (.commit g op) := by
  unfold world World.next
  dsimp only
  rw [logs_update]

lemma server_setServer (x : System) (g i g' i' : ℕ) (sv : Server) :
    (x.setServer g i sv).server g' i' = if g' = g ∧ i' = i then sv else x.server g' i' := by
  unfold System.setServer System.server
  by_cases hg : g' = g
  · subst hg
    by_cases hi : i' = i
    · subst hi
      simp
    · simp [hi]
  · simp [hg]

section

variable [Coded (ℕ × (Shard → Data) × Config × GoMap ClientId ℕ)]

structure Inv (x : System) : Prop where
  sound : Sound (world x)
  groups : ∀ g, GroupOk (world x) g (x.groups g)
  servers : ∀ g i, ServerOk (world x) g i (x.server g i)
  calls : ∀ call ∈ x.calls, CallOk (world x) (x.server call.gid call.server) call
  clerks : ∀ n, ClerkOk (world x) n (x.clerks n)

lemma inv_init : Inv System.init where
  sound := sound_init
  groups := fun _ => ⟨rfl, fun _ h => absurd h List.not_mem_nil,
    fun _ h => absurd h List.not_mem_nil⟩
  servers := fun _ _ => ⟨⟨[], List.nil_prefix, rfl, .boot _⟩, rfl, rfl, Nat.zero_le _, trivial,
    fun _ h => absurd h List.not_mem_nil, fun _ h => absurd h List.not_mem_nil⟩
  calls := fun _ h => absurd h List.not_mem_nil
  clerks := fun _ => ⟨fun _ h => absurd h List.not_mem_nil,
    fun _ h0 hm => absurd h0 (Nat.not_lt.mpr hm)⟩

/-- The invariant is kept, and every server goes forth or starts again. -/
structure GoesOn (x x' : System) : Prop where
  inv : Inv x'
  forth : ∀ g i, Forth (x.server g i) (x'.server g i)

/-! ### Actions that leave the world alone -/

/-- A group whose log stays, and calls. -/
lemma Inv.setGroup (h : Inv x) {gr : Group} {calls : List Call}
    (hgr : GroupOk (world x) g gr)
    (hservers : ∀ i, ServerOk (world x) g i (gr.servers i) ∧
      Forth (x.server g i) (gr.servers i))
    (hcalls : ∀ call ∈ calls, call ∈ x.calls ∨
      (call.gid = g ∧ CallOk (world x) (gr.servers call.server) call)) :
    GoesOn x { x with groups := update x.groups g gr, calls := calls } ∧
      world { x with groups := update x.groups g gr, calls := calls } = world x := by
  have hcase : ∀ g', (g' = g ∧ update x.groups g gr g' = gr) ∨
      (g' ≠ g ∧ update x.groups g gr g' = x.groups g') := by
    intro g'
    by_cases hg : g' = g
    · exact Or.inl ⟨hg, by rw [hg, update_self]⟩
    · exact Or.inr ⟨hg, update_of_ne hg _ _⟩
  have hw := world_update x g calls (hgr.log)
  refine ⟨⟨⟨by rw [hw]; exact h.sound, fun g' => ?_, fun g' i' => ?_, fun call hc => ?_,
    by rw [hw]; exact h.clerks⟩, fun g' i' => ?_⟩, hw⟩
  · rw [hw]
    show GroupOk (world x) g' (update x.groups g gr g')
    rcases hcase g' with ⟨rfl, heq⟩ | ⟨-, heq⟩ <;> rw [heq]
    · exact hgr
    · exact h.groups g'
  · rw [hw]
    show ServerOk (world x) g' i' ((update x.groups g gr g').servers i')
    rcases hcase g' with ⟨rfl, heq⟩ | ⟨-, heq⟩ <;> rw [heq]
    · exact (hservers i').1
    · exact h.servers g' i'
  · rw [hw]
    show CallOk (world x) ((update x.groups g gr call.gid).servers call.server) call
    rcases hcalls call hc with hc | ⟨hg, hok⟩
    · have hold := h.calls call hc
      rcases hcase call.gid with ⟨hg, heq⟩ | ⟨-, heq⟩ <;> rw [heq]
      · rw [hg] at hold
        exact hold.later (.refl _) (hservers call.server).2
      · exact hold
    · rw [hg, update_self]
      exact hok
  · show Forth (x.server g' i') ((update x.groups g gr g').servers i')
    rcases hcase g' with ⟨rfl, heq⟩ | ⟨-, heq⟩ <;> rw [heq]
    · exact (hservers i').2
    · exact .refl _

lemma Inv.setServer (h : Inv x) (hok : ServerOk (world x) g i sv)
    (hf : Forth (x.server g i) sv) :
    GoesOn x (x.setServer g i sv) ∧ world (x.setServer g i sv) = world x := by
  have hgr := h.groups g
  refine h.setGroup ⟨hgr.log, hgr.started, hgr.snapshots⟩ (fun i' => ?_) fun call hc => Or.inl hc
  show ServerOk (world x) g i' (update (x.groups g).servers i sv i') ∧
    Forth (x.server g i') (update (x.groups g).servers i sv i')
  by_cases hi : i' = i
  · subst hi
    rw [update_self]
    exact ⟨hok, hf⟩
  · rw [update_of_ne hi]
    exact ⟨h.servers g i', .refl _⟩

lemma Inv.addCall (h : Inv x) {op : Op} (hrule : (world x).Rule (.commit g op)) (j : ℕ) :
    GoesOn x { x with calls := x.calls ++ [⟨g, j, op, .sent⟩] } := by
  refine ⟨⟨h.sound, h.groups, h.servers, fun call hc => ?_, h.clerks⟩, fun _ _ => .refl _⟩
  rcases List.mem_append.mp hc with hc | hc
  · exact h.calls call hc
  · rw [List.mem_singleton.mp hc]
    exact ⟨hrule, trivial⟩

lemma Inv.return (h : Inv x) {gid j place n : ℕ} {op : Op} {reply : Reply}
    (hcall : ⟨gid, j, op, .replied reply place⟩ ∈ x.calls) (hc : op.clientId = .clerk n)
    (hok : reply.err = .ok) :
    let ck := x.clerks n
    GoesOn x { x with clerks := update x.clerks n { ck with open_ := ck.open_.erase op } } := by
  intro ck
  refine ⟨⟨h.sound, h.groups, h.servers, h.calls, fun n' => ?_⟩, fun _ _ => .refl _⟩
  show ClerkOk (world x) n' (update x.clerks n _ n')
  by_cases hn : n' = n
  · subst hn
    rw [update_self]
    have hreply := (h.calls _ hcall).stage (by rw [hok]; simp)
    exact (h.clerks n').return hc hreply.1.acked
  · rw [update_of_ne hn]
    exact h.clerks n'

lemma Inv.call (h : Inv x) {k : ℕ} {call : Call} {a : Handling} {r : Handled}
    (hk : x.calls[k]? = some call)
    (hr : (x.server call.gid call.server).handle call.op call.stage a = some r) :
    let gr := x.groups call.gid
    let x' : System := { x with
      groups := update x.groups call.gid
        { gr with
          servers := update gr.servers call.server
            { x.server call.gid call.server with kv := r.kv }
          started := gr.started ++ r.started }
      calls := x.calls.set k { call with stage := r.stage } }
    GoesOn x x' ∧ world x' = world x := by
  intro gr x'
  have hold := h.calls call (List.mem_of_getElem? hk)
  obtain ⟨hok, hf, hstage, hstarted⟩ := (h.servers call.gid call.server).handle hold.stage hr
  have hgr := h.groups call.gid
  refine h.setGroup ⟨hgr.log, fun op hop => ?_, hgr.snapshots⟩ (fun i' => ?_) fun call' hc => ?_
  · rcases List.mem_append.mp hop with hop | hop
    · exact hgr.started op hop
    · rw [hstarted op hop]
      exact hold.rule
  · show ServerOk (world x) call.gid i' (update gr.servers call.server _ i') ∧
      Forth (x.server call.gid i') (update gr.servers call.server _ i')
    by_cases hi : i' = call.server
    · subst hi
      rw [update_self]
      exact ⟨hok, hf⟩
    · rw [update_of_ne hi]
      exact ⟨h.servers call.gid i', .refl _⟩
  · rcases List.mem_or_eq_of_mem_set hc with hc | rfl
    · exact Or.inl hc
    · refine Or.inr ⟨rfl, hold.rule, ?_⟩
      show StageOk (world x) call.gid (update gr.servers call.server _ call.server) call.op r.stage
      rw [update_self]
      exact hstage

lemma Inv.snapshot (h : Inv x) (hphase : (x.server g i).phase = .idle) :
    let gr := x.groups g
    let sv := gr.servers i
    let x' : System := { x with
      groups := update x.groups g
        { gr with snapshots := gr.snapshots ++ [(sv.applied, sv.kv.snapshot sv.applied)] } }
    GoesOn x x' ∧ world x' = world x := by
  intro gr sv x'
  have hgr := h.groups g
  refine h.setGroup ⟨hgr.log, hgr.started, fun sn hsn => ?_⟩ (fun i' => ⟨h.servers g i', .refl _⟩)
    fun call hc => Or.inl hc
  rcases List.mem_append.mp hsn with hsn | hsn
  · exact hgr.snapshots sn hsn
  · rw [List.mem_singleton.mp hsn]
    obtain ⟨p, hp, hlen, hrep⟩ := (h.servers g i).replica
    rw [finish_of_idle hphase] at hrep
    exact ⟨p, sv.kv, hp, hlen, rfl, hrep⟩

/-! ### Events -/

lemma Inv.publish (h : Inv x) {config : Config} (hrule : (world x).Rule (.publish config)) :
    GoesOn x { x with configs := x.configs ++ [config] } := by
  have hl := later_next (world x) (.publish config)
  exact ⟨⟨h.sound.next hrule, fun g => (h.groups g).later hl rfl,
    fun g i => (h.servers g i).later hl fun r hr => Or.inl hr,
    fun call hc => (h.calls call hc).later hl (.refl _), fun n => (h.clerks n).later hl⟩,
    fun _ _ => .refl _⟩

lemma Inv.invoke (h : Inv x) (n : ℕ) (request : Request) :
    let op := (x.clerks n).next n request
    (world x).Rule (.ask op) ∧ GoesOn x { x with
      clerks := update x.clerks n ⟨(x.clerks n).seqNum + 1, (x.clerks n).open_ ++ [op]⟩
      asked := x.asked ++ [op] } := by
  intro op
  have hl := later_next (world x) (.ask op)
  have hrule : (world x).Rule (.ask op) := (next_spec (x.clerks n) n request).2.2
  refine ⟨hrule, ⟨h.sound.next hrule, fun g => (h.groups g).later hl rfl,
    fun g i => (h.servers g i).later hl fun r hr => Or.inl hr,
    fun call hc => (h.calls call hc).later hl (.refl _), fun n' => ?_⟩, fun _ _ => .refl _⟩
  show ClerkOk ((world x).next (.ask op)) n' (update x.clerks n _ n')
  by_cases hn : n' = n
  · subst hn
    rw [update_self]
    exact (h.clerks n').invoke request
  · rw [update_of_ne hn]
    exact (h.clerks n').later hl

lemma Inv.commit (h : Inv x) {k : ℕ} {op : Op} (hk : (x.groups g).started[k]? = some op) :
    let gr := x.groups g
    let x' : System := { x with
      groups := update x.groups g
        { gr with log := gr.log ++ [op], started := gr.started.eraseIdx k } }
    (world x).Rule (.commit g op) ∧ GoesOn x x' ∧ world x' = (world x).next (.commit g op) := by
  intro gr x'
  have hrule := (h.groups g).started op (List.mem_of_getElem? hk)
  have hl := later_next (world x) (.commit g op)
  have hw : world x' = (world x).next (.commit g op) := world_commit x g op _
  have hserver : ∀ g' i', x'.server g' i' = x.server g' i' := by
    intro g' i'
    show (update x.groups g _ g').servers i' = _
    by_cases hg : g' = g
    · subst hg
      rw [update_self]
      rfl
    · rw [update_of_ne hg]
      rfl
  refine ⟨hrule, ⟨⟨by rw [hw]; exact h.sound.next hrule, fun g' => ?_, fun g' i' => ?_,
    fun call hc => ?_, fun n => by rw [hw]; exact (h.clerks n).later hl⟩, fun g' i' => ?_⟩, hw⟩
  · rw [hw]
    show GroupOk _ g' (update x.groups g _ g')
    by_cases hg : g' = g
    · subst hg
      rw [update_self]
      have hgr := h.groups g'
      refine ⟨?_, fun op' hop => ?_, fun sn hsn => ?_⟩
      · rw [next_commit_logs]
        rfl
      · exact hl.rule (hgr.started op' (List.mem_of_mem_eraseIdx hop))
      · obtain ⟨p, kv, hp, hrest⟩ := hgr.snapshots sn hsn
        exact ⟨p, kv, hp.trans (hl.logs g'), hrest⟩
    · rw [update_of_ne hg]
      exact (h.groups g').later hl (next_commit_logs_of_ne _ op hg)
  · rw [hw, hserver]
    exact (h.servers g' i').later hl fun r hr => Or.inl hr
  · rw [hw, hserver]
    exact (h.calls call hc).later hl (.refl _)
  · rw [hserver]
    exact .refl _

lemma Inv.issue (h : Inv x) {o : ℕ} {r : Issue} {proc : Proc}
    (hs : (x.server g i).proc.issue g ((x.server g i).kv.seqNum + 1) (x.server g i).kv.clientId o =
      some (r, proc)) :
    let sv := { x.server g i with
      kv := { (x.server g i).kv with seqNum := (x.server g i).kv.seqNum + 1 }, proc := proc }
    let x' : System := { x.setServer g i sv with issued := x.issued ++ [r] }
    (world x).Rule (.issue r) ∧ GoesOn x x' ∧ world x' = (world x).next (.issue r) := by
  intro sv x'
  obtain ⟨hrule, hclient, hok⟩ := (h.servers g i).issue hs
  have hf : Forth (x.server g i) sv := Or.inr ⟨rfl, le_rfl, fun _ => le_rfl⟩
  have hl := later_next (world x) (.issue r)
  have hset : world (x.setServer g i sv) = world x := world_update x g x.calls rfl
  have hw : world x' = (world x).next (.issue r) :=
    congrArg (fun w : World => { w with issued := x.issued ++ [r] }) hset
  refine ⟨hrule, ⟨⟨by rw [hw]; exact h.sound.next hrule, fun g' => ?_, fun g' i' => ?_,
    fun call hc => ?_, fun n => by rw [hw]; exact (h.clerks n).later hl⟩, fun g' i' => ?_⟩, hw⟩
  · rw [hw]
    show GroupOk _ g' (update x.groups g _ g')
    by_cases hg : g' = g
    · subst hg
      rw [update_self]
      obtain ⟨hlog, hstarted, hsnap⟩ := (h.groups g').later hl rfl
      exact ⟨hlog, hstarted, hsnap⟩
    · rw [update_of_ne hg]
      exact (h.groups g').later hl rfl
  · rw [hw]
    show ServerOk _ g' i' ((x.setServer g i sv).server g' i')
    rw [server_setServer]
    split
    · next heq =>
      obtain ⟨rfl, rfl⟩ := heq
      exact hok
    · next hne =>
      refine (h.servers g' i').later hl fun r' hr' => ?_
      rcases List.mem_append.mp hr' with hr' | hr'
      · exact Or.inl hr'
      · right
        intro e he
        rw [List.mem_singleton.mp hr', hclient] at he
        obtain ⟨hg, hi, -⟩ := ClientId.server.inj he
        exact hne ⟨hg.symm, hi.symm⟩
  · rw [hw]
    show CallOk _ ((x.setServer g i sv).server call.gid call.server) call
    rw [server_setServer]
    split
    · next heq =>
      have hold := h.calls call hc
      rw [heq.1, heq.2] at hold
      exact hold.later hl hf
    · exact (h.calls call hc).later hl (.refl _)
  · show Forth _ ((x.setServer g i sv).server g' i')
    rw [server_setServer]
    split
    · next heq =>
      rw [heq.1, heq.2]
      exact hf
    · exact .refl _

/-- **One action** leaves the world alone or is one event of the protocol. -/
theorem Inv.step {act : Action} (h : Inv x) (hs : step x act = some x') :
    GoesOn x x' ∧ (world x' = world x ∨
      ∃ ev, event x act = some ev ∧ (world x).Rule ev ∧ world x' = (world x).next ev) := by
  cases steps_of_step hs with
  | publish hnum => exact ⟨h.publish hnum, Or.inr ⟨_, rfl, hnum, rfl⟩⟩
  | invoke n request =>
    obtain ⟨hrule, hkeep⟩ := h.invoke n request
    exact ⟨hkeep, Or.inr ⟨_, rfl, hrule, rfl⟩⟩
  | @send n _ _ j op hop =>
    have hask := ((h.clerks n).open_ op (List.mem_of_getElem? hop)).1
    exact ⟨h.addCall (Or.inl hask) j, Or.inl rfl⟩
  | @«return» _ _ _ call _ hk hstage hc hok =>
    obtain ⟨gid, j, op, stage⟩ := call
    obtain rfl := hstage
    exact ⟨h.return (List.mem_of_getElem? hk) hc hok, Or.inl rfl⟩
  | call hk hr =>
    obtain ⟨hkeep, hw⟩ := h.call hk hr
    exact ⟨hkeep, Or.inl hw⟩
  | @commit gid _ op hop =>
    obtain ⟨hrule, hkeep, hw⟩ := h.commit hop
    exact ⟨hkeep, Or.inr ⟨.commit gid op, by simp [event, hop], hrule, hw⟩⟩
  | snapshot hphase =>
    obtain ⟨hkeep, hw⟩ := h.snapshot hphase
    exact ⟨hkeep, Or.inl hw⟩
  | @server gid j _ _ hsv =>
    obtain ⟨hok, hf⟩ := (h.servers gid j).step h.sound (h.groups gid) hsv
    obtain ⟨hkeep, hw⟩ := h.setServer hok hf
    exact ⟨hkeep, Or.inl hw⟩
  | @issue _ _ _ r _ hr =>
    obtain ⟨hrule, hkeep, hw⟩ := h.issue hr
    exact ⟨hkeep, Or.inr ⟨.issue r, by simp [event, hr], hrule, hw⟩⟩
  | @request gid j _ j' _ _ hout =>
    exact ⟨h.addCall (Or.inr ((h.servers gid j).outstanding hout)) j', Or.inl rfl⟩
  | @receive gid j _ _ place call reply _ hk hstage hout herr hproc =>
    have hreply := (h.calls call (List.mem_of_getElem? hk)).stage
    rw [hstage] at hreply
    obtain ⟨hok, hf⟩ := (h.servers gid j).receive hout hreply herr hproc
    obtain ⟨hkeep, hw⟩ := h.setServer hok hf
    exact ⟨hkeep, Or.inl hw⟩

/-- **The service refines the protocol.** -/
theorem reaches_world {P : System → Action → Prop} {Q : World → Event → Prop}
    (hPQ : ∀ x act, Inv x → P x act → OnEvents Q x act)
    (hr : ReachesIf ShardSystem.step P System.init x) :
    Inv x ∧ ReachesIf World.step Q World.init (world x) := by
  refine hr.sim world inv_init fun x act x' hi hP hs => ?_
  obtain ⟨⟨hi', -⟩, hw | ⟨ev, hev, hrule, hw⟩⟩ := hi.step hs
  · exact ⟨hi', Or.inl hw⟩
  · exact ⟨hi', Or.inr ⟨ev, hPQ x act hi hP ev hev, World.step_eq_some.mpr ⟨hrule, hw⟩⟩⟩

/-- The rule for what every event of the protocol keeps. -/
theorem inv_of_reaches {P : System → Action → Prop} {Q : World → Event → Prop} {I : World → Prop}
    (hPQ : ∀ x act, Inv x → P x act → OnEvents Q x act) (h₀ : I World.init)
    (hstep : ∀ w ev, Sound w → I w → Q w ev → w.Rule ev → I (w.next ev))
    (hr : ReachesIf ShardSystem.step P System.init x) : Inv x ∧ I (world x) := by
  obtain ⟨hi, hw⟩ := reaches_world hPQ hr
  exact ⟨hi, (inv_of_reachesIf h₀ hstep hw).2⟩

lemma inv_of_run (hr : Reaches ShardSystem.step System.init x) : Inv x :=
  (inv_of_reaches (I := fun _ => True) (Q := fun _ _ => True) (fun _ _ _ _ _ _ => trivial) trivial
    (fun _ _ _ _ _ _ => trivial) hr).1

end

end Mit6824.ShardRefine
