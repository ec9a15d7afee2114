import Mit6824.GoData
import Mit6824.RaftPort
import Mit6824.RaftSafety

/-!
Raft refines a replicated log as a service.

Beside a cluster whose services hand over arbitrary bytes runs the cluster whose services hand
over the commands they were delivered. Both are views of a third one, whose snapshots are tagged
with the commands and the bytes. What is known of the second cluster then says what the services
of the first are delivered.
-/

namespace Mit6824.RaftTraces

open Mit6824.Labgob Mit6824.Quorum Mit6824.TermLog Mit6824.Repl Mit6824.Compose
open Mit6824.RaftLog Mit6824.RaftState Mit6824.RaftElection Mit6824.RaftReplication
open Mit6824.RaftApplier Mit6824.RaftCluster Mit6824.RaftSim Mit6824.RaftSteps
open Mit6824.RaftViews Mit6824.RaftPort Function

variable {n : ℕ} {C : Type}

/-! ### Tags -/

section Tags

/-- The bytes that stand for a snapshot: the commands that it covers, in code, and what the
service handed over. -/
def tag [Coded (List C)] (commands : List C) (data : Bytes) : Bytes :=
  encode ((encode commands : Bytes), data)

def untag (p : Bytes) : Bytes × Bytes :=
  if p = [] then ([], []) else (decode p : Option (Bytes × Bytes)).getD ([], [])

def codeOf (p : Bytes) : Bytes := (untag p).1

def dataOf (p : Bytes) : Bytes := (untag p).2

variable [Coded (List C)]

lemma untag_tag (cmds : List C) (data : Bytes) : untag (tag cmds data) = (encode cmds, data) := by
  unfold untag tag
  rw [if_neg (encode_ne_nil _), decode_encode]
  rfl

@[simp] lemma codeOf_tag (cmds : List C) (data : Bytes) : codeOf (tag cmds data) = encode cmds :=
  congrArg Prod.fst (untag_tag cmds data)

@[simp] lemma dataOf_tag (cmds : List C) (data : Bytes) : dataOf (tag cmds data) = data :=
  congrArg Prod.snd (untag_tag cmds data)

variable (C) in
/-- The bytes are the tag of a snapshot that was handed over, or empty. -/
def Tagged (snapshots : List (ℕ × Bytes)) (p : Bytes) : Prop :=
  p = [] ∨ ∃ (cmds : List C) (data : Bytes), p = tag cmds data ∧ (cmds.length, data) ∈ snapshots

lemma Tagged.mono {snaps snaps' : List (ℕ × Bytes)} {p : Bytes} (h : Tagged C snaps p)
    (hsub : snaps ⊆ snaps') : Tagged C snaps' p := by
  rcases h with h | ⟨cmds, data, h, hm⟩
  · exact Or.inl h
  · exact Or.inr ⟨cmds, data, h, hsub hm⟩

end Tags

open Classical in
/-- Leaves alone the bytes that have a property. -/
noncomputable def keep (Q : Bytes → Prop) (p : Bytes) : Bytes := if Q p then p else []

lemma keep_of {Q : Bytes → Prop} {p : Bytes} (h : Q p) : keep Q p = p := if_pos h

lemma keep_of_not {Q : Bytes → Prop} {p : Bytes} (h : ¬ Q p) : keep Q p = [] := if_neg h

lemma keep_nil (Q : Bytes → Prop) : keep Q [] = [] := ite_self _

lemma of_keep_eq {Q : Bytes → Prop} {p : Bytes} (h₀ : Q []) (h : keep Q p = p) : Q p := by
  by_contra hQ
  rw [keep_of_not hQ] at h
  exact hQ (h ▸ h₀)

/-! ### Views of views -/

section Views

variable (f g : Bytes → Bytes)

lemma mapMsg_id (m : ApplyMsg C) : mapMsg id m = m := by cases m <;> rfl

lemma mapApplier_id (ap : Applier C) : mapApplier id ap = ap := by
  cases ap <;> simp only [mapApplier, mapMsg_id]

lemma mapApplier_mapApplier (ap : Applier C) :
    mapApplier g (mapApplier f ap) = mapApplier (g ∘ f) ap := by
  rcases ap with _ | ⟨_ | _⟩ | ⟨_ | _⟩ <;> rfl

lemma view_view (c : Cluster n C) : view g (view f c) = view (g ∘ f) c := by
  unfold view
  rw [List.map_map]
  congr 1
  funext s
  unfold viewServer
  congr 1
  exact mapApplier_mapApplier f g _

lemma view_keep_mono {Q Q' : Bytes → Prop} (hQ : ∀ p, Q p → Q' p) {c : Cluster n C}
    (h : view (keep Q) c = c) : view (keep Q') c = c := by
  have hcomp : keep Q' ∘ keep Q = keep Q := by
    funext p
    by_cases hp : Q p
    · rw [comp_apply, keep_of hp, keep_of (hQ p hp)]
    · rw [comp_apply, keep_of_not hp, keep_nil]
  calc view (keep Q') c = view (keep Q') (view (keep Q) c) := by rw [h]
    _ = view (keep Q) c := by rw [view_view, hcomp]
    _ = c := h

end Views

/-! ### Three clusters -/

section Layers

/-- A cluster `o` with arbitrary snapshots and a cluster `c` whose snapshots are lists of
commands, as views of one with tags. -/
structure Layers [Coded (List C)] (snaps : List (ℕ × Bytes)) (o p c : Cluster n C) : Prop where
  bytes : o = view dataOf p
  code : view id c = view codeOf p
  tagged : view (keep (Tagged C snaps)) p = p

variable [Coded (List C)] {snaps : List (ℕ × Bytes)} {o o' p c : Cluster n C}

lemma Layers.raft_code (h : Layers snaps o p c) (s : Fin n) :
    (c.servers s).raft = mapRaft codeOf (p.servers s).raft :=
  congrArg (fun d => (d.servers s).raft) h.code

lemma Layers.raft_bytes (h : Layers snaps o p c) (s : Fin n) :
    (o.servers s).raft = mapRaft dataOf (p.servers s).raft :=
  congrArg (fun d => (d.servers s).raft) h.bytes

lemma Layers.raft_tagged (h : Layers snaps o p c) (s : Fin n) :
    mapRaft (keep (Tagged C snaps)) (p.servers s).raft = (p.servers s).raft :=
  congrArg (fun d => (d.servers s).raft) h.tagged

lemma Layers.applier_code (h : Layers snaps o p c) (s : Fin n) :
    (c.servers s).applier = mapApplier codeOf (p.servers s).applier := by
  rw [← mapApplier_id (c.servers s).applier]
  exact congrArg (fun d => (d.servers s).applier) h.code

lemma Layers.mono (h : Layers snaps o p c) {snaps' : List (ℕ × Bytes)} (hsub : snaps ⊆ snaps') :
    Layers snaps' o p c :=
  ⟨h.bytes, h.code, view_keep_mono (fun _ hp => hp.mono hsub) h.tagged⟩

lemma Layers.setRaft (h : Layers snaps o p c) {s : Fin n} {rf : Raft n C}
    (hrf : mapRaft (keep (Tagged C snaps)) rf = rf) {c' : Cluster n C}
    (hc' : view id c' = view id (c.setRaft s (mapRaft codeOf rf))) :
    Layers snaps (o.setRaft s (mapRaft dataOf rf)) (p.setRaft s rf) c' := by
  refine ⟨?_, ?_, ?_⟩
  · rw [view_setRaft, h.bytes]
  · rw [hc', view_setRaft, view_setRaft, h.code]
    rfl
  · rw [view_setRaft, h.tagged, hrf]

lemma Layers.setSent (h : Layers snaps o p c) {s : Fin n} {m : ApplyMsg C}
    (hm : mapMsg (keep (Tagged C snaps)) m = m) {c' : Cluster n C} {service : List C}
    (hc' : view id c' = view id (c.setServer s { c.servers s with
      applier := .sent (mapMsg codeOf m), service := service })) :
    Layers snaps (o.setServer s { o.servers s with applier := .sent (mapMsg dataOf m) })
      (p.setServer s { p.servers s with applier := .sent m }) c' := by
  have hcode : viewServer id (c.servers s) = viewServer codeOf (p.servers s) :=
    congrArg (fun d => d.servers s) h.code
  have htag : viewServer (keep (Tagged C snaps)) (p.servers s) = p.servers s :=
    congrArg (fun d => d.servers s) h.tagged
  refine ⟨?_, ?_, ?_⟩
  · rewrite [view_setServer, h.bytes]
    rfl
  · rw [hc', view_setServer, view_setServer, h.code]
    refine congrArg _ ?_
    calc viewServer id { c.servers s with applier := .sent (mapMsg codeOf m), service := service }
        = { viewServer id (c.servers s) with applier := .sent (mapMsg id (mapMsg codeOf m)) } := rfl
      _ = viewServer codeOf { p.servers s with applier := .sent m } := by
        rewrite [hcode, mapMsg_id]
        rfl
  · rw [view_setServer, h.tagged]
    refine congrArg _ ?_
    calc viewServer (keep (Tagged C snaps)) { p.servers s with applier := .sent m }
        = { viewServer (keep (Tagged C snaps)) (p.servers s) with
            applier := .sent (mapMsg (keep (Tagged C snaps)) m) } := rfl
      _ = { p.servers s with applier := .sent m } := by rw [htag, hm]

variable [Inhabited C]

lemma layers_init : Layers [] (Cluster.init : Cluster n C) Cluster.init Cluster.init := by
  have hinit : ∀ f : Bytes → Bytes, f [] = [] → view f (Cluster.init : Cluster n C) =
      Cluster.init := by
    intro f hf
    unfold view Cluster.init viewServer mapRaft mapPersister blank Server.boot makePersister
    simp only [hf]
    rfl
  have hid := hinit id rfl
  exact ⟨(hinit dataOf rfl).symm, hid.trans (hinit codeOf rfl).symm, hinit _ (keep_nil _)⟩

variable [Coded (Persisted n C)]

/-- **An action of the cluster is one of all three.** -/
lemma Layers.step (h : Layers snaps o p c) {act : Action n C} (hin : Inner act)
    {r : Except Panic (Cluster n C)} (hs : step o act = some r) :
    (∃ e, r = .error e ∧ step c act = some (.error e)) ∨
      ∃ o' p' c', r = .ok o' ∧ step c act = some (.ok c') ∧ Layers snaps o' p' c' := by
  have hbytes := step_view dataOf p hin
  have hcode := step_view codeOf p hin
  have hplain := step_view id c hin
  have htag := step_view (keep (Tagged C snaps)) p hin
  rw [← h.bytes, hs] at hbytes
  rw [← h.code, hplain] at hcode
  rw [h.tagged] at htag
  cases hp : RaftCluster.step p act with
  | none =>
    rw [hp] at hbytes
    cases hbytes
  | some rp =>
    rw [hp] at hbytes hcode htag
    obtain ⟨rc, hc, hcode⟩ := Option.map_eq_some_iff.mp hcode
    obtain rfl := Option.some.inj hbytes
    have htag := Option.some.inj htag
    cases rp with
    | error e =>
      cases rc with
      | error e' =>
        obtain rfl := Except.error.inj hcode
        exact Or.inl ⟨e', rfl, hc⟩
      | ok c' => cases hcode
    | ok p' =>
      cases rc with
      | error e' => cases hcode
      | ok c' =>
        exact Or.inr ⟨_, p', c', rfl, hc, ⟨rfl, Except.ok.inj hcode,
          (Except.ok.inj htag).symm⟩⟩

end Layers

/-! ### The log -/

section Log

def begun (c : Cluster n C) : List C := c.started.filterMap fun r => r.commands.getLast?

variable [Coded (Persisted n C)] [Inhabited C] [Coded (List C)]
variable {K : Prop} {c c' : Cluster n C} {a b : Abs n C} {t : ℕ} {l : List (Entry C)}

lemma exists_started (h : Sim K c a) (hl : Decided a t l) {j : ℕ} (hj : 0 < j)
    (hjl : j ≤ l.length) : ∃ u, ⟨u, commands (l.take j)⟩ ∈ c.started := by
  rcases hl with rfl | ⟨u, x, -, ⟨hel, hx, -⟩, hlx⟩
  · rw [List.length_nil] at hjl
    omega
  have hlen : (l.take j).length = j := by rw [List.length_take]; omega
  have hne : l.take j ≠ [] := by
    rintro h0
    rw [h0, List.length_nil] at hlen
    omega
  obtain ⟨helj, hp⟩ := h.inv.log.llog hel _ (((List.take_prefix j l).trans hlx).trans hx) hne
  -- the entry is of the term of that leader, so it is above what the leader was elected with
  have hbase : a.base (lastTerm (l.take j)) < j := by
    by_contra hb
    exact lt_irrefl _ ((h.inv.log.shape_prefix helj hp hne).1 (by omega))
  refine ⟨lastTerm (l.take j), ?_⟩
  have htake : l.take j = (a.llog (lastTerm (l.take j))).take j := by
    conv_lhs => rw [List.prefix_iff_eq_take.mp hp, hlen]
  have hrec := h.started _ helj j hbase (hlen.symm.le.trans hp.length_le)
  rwa [← htake] at hrec

/-- Different entries of a decided prefix were started by different calls of `Start`. -/
lemma commands_subperm_begun (h : Sim K c a) (hl : Decided a t l) :
    (commands l).Subperm (begun c) := by
  have key : ∀ j ≤ l.length, ∃ rs : List (Started C), rs.Nodup ∧ rs ⊆ c.started ∧
      (∀ r ∈ rs, r.commands.length ≤ j) ∧
      rs.filterMap (fun r => r.commands.getLast?) = commands (l.take j) := by
    intro j
    induction j with
    | zero => exact fun _ => ⟨[], List.nodup_nil, List.nil_subset _, by simp, by simp [commands]⟩
    | succ j ih =>
      intro hj
      obtain ⟨rs, hnd, hsub, hlen, hmap⟩ := ih (by omega)
      obtain ⟨u, hu⟩ := exists_started h hl j.succ_pos hj
      have hlen' : (commands (l.take (j + 1))).length = j + 1 := by
        rw [commands, List.length_map, List.length_take]; omega
      have hsnoc : commands (l.take (j + 1)) = commands (l.take j) ++ [l[j].command] := by
        rw [commands, List.take_add_one, List.getElem?_eq_getElem (by omega), List.map_append]
        rfl
      refine ⟨rs ++ [⟨u, commands (l.take (j + 1))⟩], ?_, ?_, ?_, ?_⟩
      · refine hnd.append (List.nodup_singleton _) (List.disjoint_singleton.mpr fun hin => ?_)
        have := hlen _ hin
        rw [hlen'] at this
        omega
      · exact List.append_subset.mpr ⟨hsub, List.cons_subset.mpr ⟨hu, List.nil_subset _⟩⟩
      · intro r hr
        rcases List.mem_append.mp hr with hr | hr
        · exact (hlen r hr).trans j.le_succ
        · rw [List.mem_singleton.mp hr, hlen']
      · rw [List.filterMap_append, hmap, List.filterMap_cons_some (b := l[j].command)]
        · rw [List.filterMap_nil, hsnoc]
        · rw [hsnoc, List.getLast?_concat]
  obtain ⟨rs, hnd, hsub, -, hmap⟩ := key l.length le_rfl
  rw [List.take_length] at hmap
  obtain ⟨rs', hperm, hsubl⟩ := hnd.subperm hsub
  exact ⟨_, (hmap ▸ hperm.filterMap _), hsubl.filterMap _⟩

abbrev Service (n : ℕ) (C : Type) := LogService.State (Fin n) C Bytes

/-- The services of the cluster have been delivered what the log service says. -/
structure Logged (c : Cluster n C) (a : Abs n C) (y : Service n C) : Prop where
  sim : Sim False c a
  service : ∀ s, (c.servers s).service = y.log.take (y.pos s)
  pos : ∀ s, y.pos s ≤ y.log.length
  log : ∃ t l, Decided a t l ∧ commands l = y.log
  begun : (y.log ++ y.started).Perm (begun c)
  snapshots : ∀ r ∈ y.snapshots, r.1 ≤ y.log.length

variable {y : Service n C}

lemma Logged.service_length (h : Logged c a y) (s : Fin n) :
    (c.servers s).service.length = y.pos s := by
  rw [h.service, List.length_take, min_eq_left (h.pos s)]

/-- **The log grows by what was started.** Before a server is delivered the first command beyond
the log, that command is committed. -/
lemma Logged.commit (h : Logged c a y) (hl : Decided a t l) (hlen : l.length ≤ y.log.length + 1) :
    ∃ y', Quiet LogService.step y y' ∧ Logged c a y' ∧ commands l <+: y'.log ∧
      y'.pos = y.pos ∧ y'.snapshots = y.snapshots := by
  obtain ⟨u, x, hx, hxlog⟩ := h.log
  have hxlen : x.length = y.log.length := by rw [← hxlog, commands, List.length_map]
  by_cases hle : l.length ≤ x.length
  · have hp : l <+: x := by
      rcases h.sim.inv.decided_total hl hx with hp | hp
      · exact hp
      · rw [hp.eq_of_length (le_antisymm hp.length_le hle)]
    exact ⟨y, .refl, h, hxlog ▸ hp.map _, rfl, rfl⟩
  -- the log is all of the prefix but its last command
  have hp : x <+: l := by
    rcases h.sim.inv.decided_total hl hx with hp | hp
    · exact absurd hp.length_le hle
    · exact hp
  obtain ⟨r, hr⟩ := hp
  obtain ⟨e, rfl⟩ : ∃ e, r = [e] := by
    refine List.length_eq_one_iff.mp ?_
    have := congrArg List.length hr
    rw [List.length_append] at this
    omega
  have hcmds : commands l = y.log ++ [e.command] := by
    rw [← hr, commands, List.map_append, ← commands, hxlog]
    rfl
  have hmem : e.command ∈ y.started := by
    have hsub := commands_subperm_begun h.sim hl
    rw [hcmds] at hsub
    have hsub' := hsub.trans h.begun.symm.subperm
    exact (List.subperm_append_left y.log).mp hsub' |>.subset List.mem_cons_self
  obtain ⟨i, hi, hget⟩ := List.mem_iff_getElem.mp hmem
  refine ⟨{ y with log := y.log ++ [e.command], started := y.started.eraseIdx i },
    .single (LogService.exists_step_iff.mpr (.commit ?_)),
    ⟨h.sim, ?_, ?_, ⟨t, l, hl, hcmds⟩, ?_, ?_⟩, ?_, rfl, rfl⟩
  · rw [List.getElem?_eq_getElem hi, hget]
  · intro s
    rw [List.take_append_of_le_length (h.pos s)]
    exact h.service s
  · intro s
    rw [List.length_append]
    exact (h.pos s).trans (Nat.le_add_right _ _)
  · have hperm : (e.command :: y.started.eraseIdx i).Perm y.started :=
      hget ▸ List.getElem_cons_eraseIdx_perm hi
    rw [List.append_assoc]
    exact (hperm.append_left _).trans h.begun
  · intro r hr
    rw [List.length_append]
    exact (h.snapshots r hr).trans (Nat.le_add_right _ _)
  · rw [hcmds]

lemma Logged.move (h : Logged c a y) (hsim : Sim False c' b) (hr : Reach a b)
    (hu : ServicesKept none c c') : Logged c' b y := by
  obtain ⟨t, l, hl, hlog⟩ := h.log
  refine ⟨hsim, fun s => ?_, h.pos, ⟨t, l, hl.ext (h.sim.inv.ext hr), hlog⟩, ?_, h.snapshots⟩
  · rw [hu.service, if_neg (by simp), h.service]
  · rw [RaftTraces.begun, hu.started]
    exact h.begun

/-- The service of a server is brought to a prefix of the log. -/
lemma Logged.bring (h : Logged c a y) (hsim : Sim False c' b) (hr : Reach a b) {s : Fin n}
    (hl : commands l <+: y.log) (hserv : (c'.servers s).service = commands l)
    (hother : ∀ i, i ≠ s → (c'.servers i).service = (c.servers i).service)
    (hst : c'.started = c.started) :
    Logged c' b { y with pos := update y.pos s l.length } := by
  obtain ⟨t, d, hd, hlog⟩ := h.log
  have hlen : (commands l).length = l.length := List.length_map _
  refine ⟨hsim, fun i => ?_, fun i => ?_, ⟨t, d, hd.ext (h.sim.inv.ext hr), hlog⟩, ?_, h.snapshots⟩
  · dsimp only
    by_cases his : i = s
    · subst his
      rw [hserv, update_self, ← hlen, ← List.prefix_iff_eq_take.mp hl]
    · rw [hother i his, update_of_ne his, h.service]
  · dsimp only
    by_cases his : i = s
    · subst his
      rw [update_self, ← hlen]
      exact hl.length_le
    · rw [update_of_ne his]
      exact h.pos i
  · rw [RaftTraces.begun, hst]
    exact h.begun

lemma Logged.restart (h : Logged c a y) (hsim : Sim False c' b) (hr : Reach a b) {s : Fin n}
    (hu : ServicesKept (some s) c c') : Logged c' b { y with pos := update y.pos s 0 } := by
  refine h.bring hsim hr (l := []) List.nil_prefix ?_ (fun i his => ?_) hu.started
  · rw [hu.service, if_pos rfl]
    rfl
  · rw [hu.service, if_neg fun he => his (Option.some.inj he).symm]

omit [Coded (Persisted n C)] [Inhabited C] [Coded (List C)] in
lemma service_setRaft (c : Cluster n C) (s : Fin n) (rf : Raft n C) (i : Fin n) :
    ((c.setRaft s rf).servers i).service = (c.servers i).service := by
  by_cases his : i = s
  · subst his
    simp [Cluster.setRaft, Cluster.setServer, Server.setRaft]
  · simp [Cluster.setRaft, Cluster.setServer, his]

lemma Logged.start (h : Logged c a y) {s : Fin n} {cmd : C}
    (hs : step c (.start s cmd) = some (.ok c')) :
    ∃ b, Logged c' b { y with started :=
      if (RaftState.start (c.servers s).raft cmd).2.2.2 then y.started ++ [cmd]
      else y.started } := by
  obtain ⟨_, he, b, hr, hsim⟩ := h.sim.step hs fun hk => hk.elim
  obtain rfl := Except.ok.inj he
  obtain ⟨t, d, hd, hlog⟩ := h.log
  have hlog' : ∃ t l, Decided b t l ∧ commands l = y.log :=
    ⟨t, d, hd.ext (h.sim.inv.ext hr), hlog⟩
  simp only [step] at hs
  split at hs
  · next hlead =>
    obtain rfl := Except.ok.inj (Option.some.inj hs)
    rw [if_pos hlead]
    refine ⟨b, hsim, fun i => ?_, h.pos, hlog', ?_, h.snapshots⟩
    · rw [← h.service]
      exact service_setRaft c s _ i
    · -- the record ends with the command
      have hlast : (commandsOf (RaftState.start (c.servers s).raft cmd).1).getLast? =
          some cmd := by
        obtain ⟨e, hent, -⟩ := (h.sim.server s).mirror.log.entries
        have hrole : (c.servers s).raft.role = .leader := by
          by_contra hrole
          simp [RaftState.start, hrole] at hlead
        simp [RaftState.start, hrole, commandsOf, persistSate, Log.append, hent]
      have hbegun : RaftTraces.begun { c.setRaft s (RaftState.start (c.servers s).raft cmd).1 with
          started := ⟨(RaftState.start (c.servers s).raft cmd).2.2.1,
            commandsOf (RaftState.start (c.servers s).raft cmd).1⟩ :: c.started } =
          cmd :: RaftTraces.begun c := List.filterMap_cons_some hlast
      rw [hbegun, ← List.append_assoc]
      exact (List.perm_append_singleton _ _).trans (h.begun.cons _)
  · next hlead =>
    obtain rfl := Except.ok.inj (Option.some.inj hs)
    rw [if_neg hlead]
    exact ⟨b, hsim, h.service, h.pos, hlog', h.begun, h.snapshots⟩

end Log

/-! ### The refinement -/

variable [Coded (Persisted n C)] [Inhabited C] [Coded (List C)]

/-- The log service shows the services what the cluster shows them. -/
def Refines (x : Port n C) (y : Service n C) : Prop :=
  ∃ p c a, Layers y.snapshots x.cluster p c ∧ Logged c a y ∧ x.reached = y.pos

/-- The cluster of lists that runs beside a cluster. -/
def Linked (x : Port n C) (y : Service n C) (c : Cluster n C) : Prop :=
  ∃ p a, Layers y.snapshots x.cluster p c ∧ Logged c a y ∧ x.reached = y.pos

variable {x x' : Port n C} {y : Service n C} {c : Cluster n C} {s : Fin n}
variable {lb : Option (Label n C)}

lemma refines_iff : Refines x y ↔ ∃ c, Linked x y c :=
  ⟨fun ⟨p, c, a, h⟩ => ⟨c, p, a, h⟩, fun ⟨c, p, a, h⟩ => ⟨p, c, a, h⟩⟩

omit [Coded (Persisted n C)] [Inhabited C] [Coded (List C)] in
lemma restarted_view (f : Bytes → Bytes) (c : Cluster n C) (act : Action n C) :
    restarted (view f c) act = restarted c act := by
  cases act with
  | crashInstallSnapshot k =>
    simp only [restarted, view, List.getElem?_map, Option.map_map]
    rfl
  | _ => rfl

lemma refines_init : Refines (Port.init : Port n C) LogService.State.init := by
  refine ⟨_, _, State.init, layers_init, ⟨sim_init False, fun _ => rfl, fun _ => le_rfl,
    ⟨0, [], decided_nil _ _, rfl⟩, List.Perm.refl _, by simp [LogService.State.init]⟩, rfl⟩

lemma Linked.start (h : Linked x y c) {cmd : C} {data : Bytes}
    (hs : attempt x (.start s cmd, data) = some (.ok (x', lb))) :
    ∃ y' c', step c (.start s cmd) = some (.ok c') ∧ Linked x' y' c' ∧
      Answers LogService.step y lb y' := by
  obtain ⟨p, a, hlay, hlog, hreach⟩ := h
  simp only [attempt, Option.some.injEq, Except.ok.injEq, Prod.mk.injEq] at hs
  obtain ⟨rfl, rfl⟩ := hs
  -- the same call at the cluster of lists
  obtain ⟨c', hc'⟩ : ∃ c', step c (.start s cmd) = some (.ok c') := by
    simp only [step]
    split <;> exact ⟨_, rfl⟩
  obtain ⟨b, hlog'⟩ := hlog.start hc'
  have hview : view id c' =
      view id (c.setRaft s (RaftState.start (c.servers s).raft cmd).1) := by
    simp only [step] at hc'
    split at hc'
    · obtain rfl := Except.ok.inj (Option.some.inj hc')
      rfl
    · next hlead =>
      obtain rfl := Except.ok.inj (Option.some.inj hc')
      have hsame : (RaftState.start (c.servers s).raft cmd).1 = (c.servers s).raft := by
        unfold RaftState.start at hlead ⊢
        split
        · next hrole => simp [hrole] at hlead
        · rfl
      rw [hsame, setRaft_self]
  have htag : mapRaft (keep (Tagged C y.snapshots)) (RaftState.start (p.servers s).raft cmd).1 =
      (RaftState.start (p.servers s).raft cmd).1 := by
    have := start_map (keep (Tagged C y.snapshots)) (p.servers s).raft cmd
    rw [hlay.raft_tagged] at this
    exact (congrArg Prod.fst this).symm
  have hcode := start_map codeOf (p.servers s).raft cmd
  have hdata := start_map dataOf (p.servers s).raft cmd
  rw [← hlay.raft_code] at hcode
  rw [← hlay.raft_bytes] at hdata
  rw [hcode] at hview hlog'
  rw [hdata]
  exact ⟨{ y with started := if (RaftState.start (p.servers s).raft cmd).2.2.2 then
      y.started ++ [cmd] else y.started }, c', hc',
    ⟨_, b, hlay.setRaft htag hview, hlog', hreach⟩,
    .label .refl (d := .start s cmd (RaftState.start (p.servers s).raft cmd).2.2.2) rfl⟩

lemma Refines.snapshot (h : Refines x y) {index : ℕ} {data : Bytes}
    {r : Except Panic (Port n C × Option (Label n C))}
    (hs : attempt x (.snapshot s index, data) = some r) :
    ∃ x' lb, r = .ok (x', lb) ∧ ∃ y', Refines x' y' ∧ Answers LogService.step y lb y' := by
  obtain ⟨p, c, a, hlay, hlog, hreach⟩ := h
  simp only [attempt] at hs
  split at hs
  swap
  · cases hs
  next hle =>
  obtain rfl := Option.some.inj hs
  have hlen := hlog.service_length s
  rw [hreach] at hle
  have hcmds : ((c.servers s).service.take index).length = index := by
    rw [List.length_take]; omega
  -- the snapshot with its tag is one that was handed over
  have hlay' := hlay.mono (List.subset_append_left y.snapshots [(index, data)])
  have hkeep : keep (Tagged C (y.snapshots ++ [(index, data)]))
      (tag ((c.servers s).service.take index) data) =
      tag ((c.servers s).service.take index) data :=
    keep_of (Or.inr ⟨_, data, rfl, by rw [hcmds]; simp⟩)
  have hbytes := snapshot_map dataOf (p.servers s).raft index
    (tag ((c.servers s).service.take index) data)
  have hcode := snapshot_map codeOf (p.servers s).raft index
    (tag ((c.servers s).service.take index) data)
  have htag := snapshot_map (keep (Tagged C (y.snapshots ++ [(index, data)]))) (p.servers s).raft
    index (tag ((c.servers s).service.take index) data)
  rw [dataOf_tag, ← hlay.raft_bytes] at hbytes
  rw [codeOf_tag, ← hlay.raft_code] at hcode
  rw [hkeep, hlay'.raft_tagged] at htag
  rw [hbytes]
  have hstep : step c (.snapshot s index) = some (do
      let rf ← (RaftReplication.snapshot (p.servers s).raft index
        (tag ((c.servers s).service.take index) data)).map (mapRaft codeOf)
      return { c.setRaft s rf with
        taken := ⟨s, index, (c.servers s).service.take index⟩ :: c.taken }) := by
    simp only [step, if_pos (hle.trans hlen.ge), hcode]
  cases hp : RaftReplication.snapshot (p.servers s).raft index
      (tag ((c.servers s).service.take index) data) with
  | error e =>
    rw [hp] at hstep
    obtain ⟨c', hc', -⟩ := hlog.sim.step hstep fun hk => hk.elim
    cases hc'
  | ok rf =>
    rw [hp] at hstep htag
    obtain ⟨_, hc', b, hr, hsim⟩ := hlog.sim.step hstep fun hk => hk.elim
    obtain rfl := Except.ok.inj hc'
    have hmove := hlog.move hsim hr
      ⟨rfl, fun i => by rw [if_neg (by simp)]; exact service_setRaft c s _ i⟩
    obtain ⟨d, hd⟩ := LogService.exists_step_iff.mpr (.snapshot hle)
    refine ⟨_, _, rfl, { y with snapshots := y.snapshots ++ [(index, data)] },
      ⟨_, { c.setRaft s (mapRaft codeOf rf) with
        taken := ⟨s, index, (c.servers s).service.take index⟩ :: c.taken }, b,
        hlay'.setRaft (Except.ok.inj htag).symm rfl, ?_, hreach⟩,
      .label .refl hd⟩
    refine ⟨hmove.sim, hmove.service, hmove.pos, hmove.log, hmove.begun, fun r hr => ?_⟩
    rcases List.mem_append.mp hr with hr | hr
    · exact hmove.snapshots r hr
    · rw [List.mem_singleton.mp hr]
      exact hle.trans (hmove.pos s)

/-- The log service can make the delivery that a server is about to make. -/
lemma exists_delivery {c : Cluster n C} {a : Abs n C} {m : ApplyMsg C} {l : List (Entry C)}
    (hlog : Logged c a y) (htag : mapMsg (keep (Tagged C y.snapshots)) m = m)
    (hpc : (c.servers s).applier = .sending (mapMsg codeOf m))
    (hserve : serve (c.servers s).service (mapMsg codeOf m) = .ok (commands l))
    (hlen : l.length = m.index) :
    l.length ≤ y.log.length + 1 ∧ ∀ y' : Service n C, commands l <+: y'.log → y'.pos = y.pos →
      y'.snapshots = y.snapshots → ∃ d, LogService.step y' d = some
        ({ y' with pos := update y'.pos s l.length }, some (delivery s (mapMsg dataOf m))) := by
  have hpos := hlog.service_length s
  obtain ⟨hat, hch, hok⟩ := (hlog.sim.server s).serving.sending _ hpc
  cases m with
  | command cmd i =>
    have hi : i = y.pos s + 1 := by rw [hch.1, ← hat, hpos]
    have hcmds : (c.servers s).service ++ [cmd] = commands l := Except.ok.inj hserve
    have hle := hlog.pos s
    have hl : l.length = y.pos s + 1 := hlen.trans hi
    refine ⟨by omega, fun y' hp hy hsn => LogService.exists_step_iff.mpr ?_⟩
    have hget : y'.log[y'.pos s]? = some cmd := by
      obtain ⟨r, hr⟩ := hp
      rw [← hr, ← hcmds, hy, ← hpos, List.append_assoc, List.getElem?_append_right le_rfl]
      simp
    rw [hl, mapMsg, hi, ← hy]
    exact .command hget
  | snapshot d t i =>
    obtain ⟨hipos, l', -, hll, -, hdata⟩ := hok
    obtain ⟨hcode, -⟩ := hdata hipos
    have hd : Tagged C y.snapshots d := by
      refine of_keep_eq (Or.inl rfl) ?_
      exact (ApplyMsg.snapshot.inj htag).1
    rcases hd with rfl | ⟨cmds, dat, rfl, hmem⟩
    · exact absurd hcode.symm (encode_ne_nil _)
    have hcmds : cmds = commands l' := by
      rw [codeOf_tag] at hcode
      have := congrArg (decode : Bytes → Option (List C)) hcode
      simpa using this
    have hci : cmds.length = i := by rw [hcmds, commands, List.length_map, hll]
    rw [hci] at hmem
    have hle := hlog.snapshots _ hmem
    have hl : l.length = i := hlen
    obtain ⟨k, hk, hget⟩ := List.mem_iff_getElem.mp hmem
    refine ⟨by omega, fun y' hp hy hsn => LogService.exists_step_iff.mpr ?_⟩
    have hlt : y'.pos s < i := by
      rw [hy, ← hpos, hat]
      exact hch.1
    have hget' : y'.snapshots[k]? = some (i, dat) := by rw [hsn, List.getElem?_eq_getElem hk, hget]
    rw [hl, mapMsg, dataOf_tag]
    exact .restore hget' hlt

lemma Linked.deliver (h : Linked x y c) {data : Bytes}
    (hs : attempt x (.deliver s, data) = some (.ok (x', lb))) :
    ∃ y' c', step c (.deliver s) = some (.ok c') ∧ Linked x' y' c' ∧
      Answers LogService.step y lb y' := by
  obtain ⟨p, a, hlay, hlog, hreach⟩ := h
  have happ : (x.cluster.servers s).applier = mapApplier dataOf (p.servers s).applier :=
    congrArg (fun d => (d.servers s).applier) hlay.bytes
  have hcode := hlay.applier_code s
  have htag : mapApplier (keep (Tagged C y.snapshots)) (p.servers s).applier =
      (p.servers s).applier := congrArg (fun d => (d.servers s).applier) hlay.tagged
  simp only [attempt, happ] at hs
  rcases hpc : (p.servers s).applier with _ | m | m
  · simp [hpc, mapApplier] at hs
  swap
  · simp [hpc, mapApplier] at hs
  rw [hpc] at hs hcode htag
  simp only [mapApplier, Option.some.injEq, Except.ok.injEq, Prod.mk.injEq] at hs
  obtain ⟨rfl, rfl⟩ := hs
  -- the service of the cluster of lists is brought to a decided prefix
  obtain ⟨l, hserve, hl, hlen⟩ := hlog.sim.serve hcode
  have hidx : ∀ f, (mapMsg f m).index = m.index := by intro f; cases m <;> rfl
  rw [hidx] at hlen
  have hc' : step c (.deliver s) = some (.ok { c.setServer s { c.servers s with
      applier := .sent (mapMsg codeOf m), service := commands l } with
      delivered := ⟨s, (c.servers s).epoch, mapMsg codeOf m⟩ :: c.delivered }) := by
    simp only [step, hcode, mapApplier, hserve, bind, Except.bind, pure, Except.pure]
  obtain ⟨_, he, b, hr, hsim⟩ := hlog.sim.step hc' fun hk => hk.elim
  obtain rfl := Except.ok.inj he
  -- the log service commits what is missing and delivers
  obtain ⟨hle, hdel⟩ := exists_delivery hlog (Applier.sending.inj htag) hcode hserve hlen
  obtain ⟨y₁, hquiet, hlog₁, hpre, hpos, hsn⟩ := hlog.commit hl hle
  obtain ⟨d, hd⟩ := hdel y₁ hpre hpos hsn
  refine ⟨_, _, hc', ⟨p.setServer s { p.servers s with applier := .sent m }, b, ?_,
    hlog₁.bring hsim hr hpre ?_ (fun i his => ?_) rfl, ?_⟩, .label hquiet hd⟩
  · rw [hsn]
    exact hlay.setSent (Applier.sending.inj htag) rfl
  · simp [Cluster.setServer]
  · simp [Cluster.setServer, his]
  · dsimp only
    rw [hreach, hidx, hpos, hlen]

lemma Refines.inner (h : Refines x y) {act : Action n C} (hin : Inner act)
    {r : Except Panic (Cluster n C)} (hs : step x.cluster act = some r) :
    ∃ o, r = .ok o ∧
      (restarted x.cluster act = none → Refines { x with cluster := o } y) ∧
      ∀ i, restarted x.cluster act = some i →
        Refines ⟨o, update x.reached i 0⟩ { y with pos := update y.pos i 0 } := by
  obtain ⟨p, c, a, hlay, hlog, hreach⟩ := h
  rcases hlay.step hin hs with ⟨e, rfl, hc⟩ | ⟨o, p', c', rfl, hc, hlay'⟩
  · obtain ⟨c', hc', -⟩ := hlog.sim.step hc fun hk => hk.elim
    cases hc'
  obtain ⟨_, hc', b, hr, hsim⟩ := hlog.sim.step hc fun hk => hk.elim
  obtain rfl := Except.ok.inj hc'
  have hu := servicesKept hin hc
  have hrest : restarted x.cluster act = restarted c act := by
    rw [hlay.bytes, restarted_view, ← restarted_view codeOf, ← hlay.code, restarted_view]
  refine ⟨o, rfl, fun hnone => ?_, fun i hi => ?_⟩
  · rw [hrest] at hnone
    rw [hnone] at hu
    exact ⟨p', c', b, hlay', hlog.move hsim hr hu, hreach⟩
  · rw [hrest] at hi
    rw [hi] at hu
    exact ⟨p', c', b, hlay', hlog.restart hsim hr hu, by rw [hreach]⟩

/-- **Every action of the cluster is one of the log service.** -/
theorem Refines.attempt (h : Refines x y) {act : Action n C × Bytes}
    {r : Except Panic (Port n C × Option (Label n C))} (hs : attempt x act = some r) :
    ∃ x' lb, r = .ok (x', lb) ∧ ∃ y', Refines x' y' ∧ Answers LogService.step y lb y' := by
  obtain ⟨act, data⟩ := act
  have hinner : Inner act → RaftPort.attempt x (act, data) = (step x.cluster act).map (fun r =>
      r.map fun c => x.move c (restarted x.cluster act)) →
      ∃ x' lb, r = .ok (x', lb) ∧ ∃ y', Refines x' y' ∧ Answers LogService.step y lb y' := by
    intro hin heq
    rw [heq] at hs
    obtain ⟨r', hr', rfl⟩ := Option.map_eq_some_iff.mp hs
    obtain ⟨o, rfl, hnone, hsome⟩ := h.inner hin hr'
    cases hrest : restarted x.cluster act with
    | none => exact ⟨_, _, rfl, y, hnone hrest, .quiet .refl⟩
    | some i => exact ⟨_, _, rfl, _, hsome i hrest, .label .refl (d := .restart i) rfl⟩
  cases act with
  | start s cmd =>
    obtain ⟨x', lb, rfl⟩ : ∃ x' lb, r = .ok (x', lb) := ⟨_, _, (Option.some.inj hs).symm⟩
    obtain ⟨c, hc⟩ := refines_iff.mp h
    obtain ⟨y', c', -, hl, hans⟩ := hc.start hs
    exact ⟨x', lb, rfl, y', refines_iff.mpr ⟨c', hl⟩, hans⟩
  | snapshot s index => exact h.snapshot hs
  | deliver s =>
    have hok : ∃ x' lb, r = .ok (x', lb) := by
      simp only [RaftPort.attempt] at hs
      split at hs
      · obtain rfl := Option.some.inj hs
        exact ⟨_, _, rfl⟩
      · cases hs
    obtain ⟨x', lb, rfl⟩ := hok
    obtain ⟨c, hc⟩ := refines_iff.mp h
    obtain ⟨y', c', -, hl, hans⟩ := hc.deliver hs
    exact ⟨x', lb, rfl, y', refines_iff.mpr ⟨c', hl⟩, hans⟩
  | _ => exact hinner trivial rfl

theorem raft_simulates : Simulates (raft (n := n) (C := C)) LogService.step Refines := by
  intro x y act x' lb h hs
  simp only [raft] at hs
  split at hs
  · next r hr =>
    obtain rfl := Option.some.inj hs
    obtain ⟨x₁, lb₁, he, hy⟩ := h.attempt hr
    obtain ⟨rfl, rfl⟩ := Prod.mk.inj (Except.ok.inj he)
    exact hy
  · cases hs

end Mit6824.RaftTraces
