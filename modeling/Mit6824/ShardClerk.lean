import Mit6824.ShardReplica
import Mit6824.ShardSystem

/-!
`Get` of a clerk of the sharded service (`shardkv/client.go`): the loop over the configurations, and
in each round the loop of `callOtherGroup` over the servers of a group.

What a `select` comes to is up to the network; an answer is always what the handler of some server
makes of the request. The clerk goes on after every reply but `OK`, so an answer with a value ends
the loop at once and every other answer does not, `ErrNoKey` included.
-/

namespace Mit6824.ShardClerk

open Mit6824.GoData Mit6824.Labgob Mit6824.ShardServer Mit6824.ShardReplica
open Mit6824.ShardSystem (System Server Stage Handling Handled Call Action step steps_of_step)
open Mit6824.Runs

/-! ### Answers -/

structure GetReply where
  err : Err
  value : GoString
  deriving DecidableEq

/-- How a handler came to its reply: its server took itself for no leader, or `operate` returned
`OK` and it has read the store. -/
inductive Answer
  | refused
  | read (kv : ShardKV)

/-- The reply of `ShardKV.Get`. -/
def Answer.reply (args : GetArgs) : Answer → GetReply
  | refused => ⟨.errWrongLeader, []⟩
  | read kv =>
    let (value, err) := kv.get args.key
    ⟨err, value⟩

/-- The group has the shard of the key, as far as the server knows. -/
def Owns (kv : ShardKV) (key : GoString) : Prop := kv.gid = kv.config.shards (key2shard key)

/-- What a handler of the system makes of a `Get`. A `Get` has no stage in which it has read shards
and not yet the numbers. -/
lemma answer_of_handle {sv : Server} {args : GetArgs} {stage : Stage} {h : Handling} {r : Handled}
    (hr : sv.handle (.get args) stage h = some r)
    (hread : ∀ epoch shards, stage ≠ .read epoch shards) :
    (∀ epoch shards, r.stage ≠ .read epoch shards) ∧
      ∀ reply place, r.stage = .replied reply place → ∃ a : Answer,
        reply = .getReply (a.reply args).err (a.reply args).value ∧
          (a = .refused ∨ a = .read sv.kv) := by
  cases h with
  | pass => cases hr
  | operate isLeader =>
    simp only [Server.handle] at hr
    split at hr
    · obtain rfl := Option.some.inj hr
      unfold Server.operate
      dsimp only
      split
      · exact ⟨fun _ _ h => (nomatch h), fun _ _ h => (nomatch h)⟩
      · exact ⟨fun _ _ h => (nomatch h), fun _ _ h => (nomatch h)⟩
      · refine ⟨fun _ _ h => (nomatch h), fun reply place h => ⟨.refused, ?_, Or.inl rfl⟩⟩
        exact (Stage.replied.inj h).1.symm
    · cases hr
  | wake =>
    simp only [Server.handle] at hr
    split at hr
    · obtain rfl := Option.some.inj hr
      exact ⟨fun _ _ h => (nomatch h), fun _ _ h => (nomatch h)⟩
    · cases hr
  | answer =>
    simp only [Server.handle] at hr
    split at hr
    · obtain rfl := Option.some.inj hr
      refine ⟨fun _ _ h => (nomatch h), fun reply place h => ⟨.read sv.kv, ?_, Or.inr rfl⟩⟩
      exact (Stage.replied.inj h).1.symm
    · cases hr
  | finish =>
    cases stage with
    | read epoch shards => exact absurd rfl (hread epoch shards)
    | _ => cases hr

section

variable [Coded (ℕ × (Shard → Data) × Config × GoMap ClientId ℕ)] {x x' : System} {act : Action}

/-- The reply to a `Get` is an answer of its server, as that was at some time. -/
def Replied (call : Call) : Prop :=
  ∀ args, call.op = .get args → (∀ epoch shards, call.stage ≠ .read epoch shards) ∧
    ∀ reply place, call.stage = .replied reply place → ∃ a : Answer,
      reply = .getReply (a.reply args).err (a.reply args).value ∧
        (a = .refused ∨ ∃ x₀, Reaches step System.init x₀ ∧
          a = .read (x₀.server call.gid call.server).kv)

lemma replied_sent (gid i : ℕ) (op : Op) : Replied ⟨gid, i, op, .sent⟩ :=
  fun _ _ => ⟨fun _ _ h => (nomatch h), fun _ _ h => (nomatch h)⟩

lemma Replied.handle (hr : Reaches step System.init x) {call : Call} (h : Replied call)
    {hd : Handling} {r : Handled}
    (hrun : (x.server call.gid call.server).handle call.op call.stage hd = some r) :
    Replied { call with stage := r.stage } := by
  intro args hop
  have hop : call.op = .get args := hop
  rw [hop] at hrun
  obtain ⟨hread, hreply⟩ := answer_of_handle hrun (h args hop).1
  refine ⟨hread, fun reply place hstage => ?_⟩
  obtain ⟨a, ha, hkv⟩ := hreply reply place hstage
  exact ⟨a, ha, hkv.imp_right fun hkv => ⟨x, hr, hkv⟩⟩

/-- Calls are added by clerks and servers, and taken on by handlers. -/
lemma replied_of_step (hr : Reaches step System.init x) (h : ∀ call ∈ x.calls, Replied call)
    (hs : step x act = some x') : ∀ call ∈ x'.calls, Replied call := by
  have hsnoc : ∀ gid i op, ∀ call ∈ x.calls ++ [⟨gid, i, op, .sent⟩], Replied call := by
    intro gid i op call hmem
    rcases List.mem_append.mp hmem with hmem | hmem
    · exact h call hmem
    · obtain rfl := List.mem_singleton.mp hmem
      exact replied_sent gid i op
  cases steps_of_step hs with
  | send hop => exact hsnoc _ _ _
  | request hout => exact hsnoc _ _ _
  | call hk hrun =>
    intro call' hmem
    rcases List.mem_or_eq_of_mem_set hmem with hmem | rfl
    · exact h call' hmem
    · exact (h _ (List.mem_of_getElem? hk)).handle hr hrun
  | _ => exact h

/-- **Every reply to a `Get` is an answer.** -/
theorem replied_of_reaches (hr : Reaches step System.init x) : ∀ call ∈ x.calls, Replied call := by
  have hinv : Reaches step System.init x ∧ ∀ call ∈ x.calls, Replied call := by
    refine hr.inv (I := fun x => Reaches step System.init x ∧ ∀ call ∈ x.calls, Replied call)
      ⟨.refl, fun call hcall => absurd hcall List.not_mem_nil⟩ fun x act x' h hok hs => ?_
    exact ⟨h.1.tail ⟨act, hok, hs⟩, replied_of_step h.1 h.2 hs⟩
  exact hinv.2

end

/-! ### The clerk -/

/-- `groupLeaderMap` has the server of a group that answered last. -/
structure Clerk where
  config : Config
  seqNum : ℕ
  clientId : ClientId
  groupLeaderMap : GoMap ℕ ℕ

/-- What a `select` of `callOtherGroup` comes to. -/
inductive Select
  | done (serverID : ℕ) (answer : Answer)
  | timeout

/-- The network decides on a `select` when these servers have been called. -/
abbrev Net := List (ℕ × GoString) → Select

/-- The variable `r` of `callOtherGroup`; `received` records all answers that were taken from the
channel, and nothing looks at it. -/
structure Result where
  serverID : ℕ
  reply : Option GetReply
  received : List Answer

/-- The loop of `callOtherGroup` over the offsets that are left. -/
def callLoop (args : GetArgs) (servers : List GoString) (leaderId : ℕ) (net : Net) :
    List ℕ → List (ℕ × GoString) → Result → Result
  | [], _, r => r
  | off :: offs, called, r =>
    let si := (leaderId + off) % servers.length
    let called := called ++ [(si, servers.getD si [])]
    match net called with
    | .timeout => callLoop args servers leaderId net offs called r
    | .done serverID answer =>
      let r := ⟨serverID, some (answer.reply args), r.received ++ [answer]⟩
      if (answer.reply args).err = .errWrongLeader then
        callLoop args servers leaderId net offs called r
      else r

/-- One round of `Get`: the calls, and the configuration that `Query` answers after them. -/
structure Round where
  net : Net
  latest : Config

/-- Where `Get` is: `value` is what it has returned. -/
structure Getting where
  clerk : Clerk
  seen : List Answer
  value : Option GoString

namespace Clerk

def callOtherGroup (ck : Clerk) (args : GetArgs) (gid : ℕ) (servers : List GoString) (net : Net) :
    Clerk × Result :=
  let leaderId := (ck.groupLeaderMap.lookup gid).getD 0
  let r := callLoop args servers leaderId net (List.range servers.length) [] ⟨0, none, []⟩
  ({ ck with groupLeaderMap := ck.groupLeaderMap.insert gid r.serverID }, r)

/-- A round of `Get` up to its `Sleep`. -/
def attempt (ck : Clerk) (args : GetArgs) (net : Net) : Getting :=
  let gid := ck.config.shards (key2shard args.key)
  match ck.config.groups.lookup gid with
  | none => ⟨ck, [], none⟩
  | some servers =>
    let (ck, r) := ck.callOtherGroup args gid servers net
    match r.reply with
    | none => ⟨ck, r.received, none⟩
    | some getReply => ⟨ck, r.received, if getReply.err = .ok then some getReply.value else none⟩

/-- The loop of `Get`, as long as there are rounds. -/
def getLoop (args : GetArgs) : List Round → Clerk → Getting
  | [], ck => ⟨ck, [], none⟩
  | round :: rounds, ck =>
    let g := ck.attempt args round.net
    match g.value with
    | some value => ⟨g.clerk, g.seen, some value⟩
    | none =>
      let g' := getLoop args rounds { g.clerk with config := round.latest }
      { g' with seen := g.seen ++ g'.seen }

def get (ck : Clerk) (key : GoString) (rounds : List Round) : Getting :=
  let ck := { ck with seqNum := ck.seqNum + 1 }
  getLoop ⟨key, ck.seqNum, ck.clientId⟩ rounds ck

end Clerk

variable {args : GetArgs} {a : Answer} {ck : Clerk} {net : Net}

/-! ### One round -/

/-- The first answer that is no refusal is the last that is received, and it is the result. -/
def Settles (args : GetArgs) (r : Result) : Prop :=
  ∀ a ∈ r.received, (a.reply args).err ≠ .errWrongLeader →
    r.received.getLast? = some a ∧ r.reply = some (a.reply args)

lemma settles_callLoop (servers : List GoString) (leaderId : ℕ) (net : Net) (offs : List ℕ)
    (called : List (ℕ × GoString)) {r : Result}
    (h : ∀ a ∈ r.received, (a.reply args).err = .errWrongLeader) :
    Settles args (callLoop args servers leaderId net offs called r) := by
  induction offs generalizing called r with
  | nil => exact fun a ha hne => absurd (h a ha) hne
  | cons off offs ih =>
    rw [callLoop]
    dsimp only
    split
    · exact ih _ h
    · next serverID answer _ =>
      have hsnoc : ∀ a ∈ r.received ++ [answer], (a.reply args).err ≠ .errWrongLeader →
          a = answer := by
        intro a ha hne
        rcases List.mem_append.mp ha with ha | ha
        · exact absurd (h a ha) hne
        · exact List.mem_singleton.mp ha
      split
      · next hwrong =>
        refine ih _ fun a ha => ?_
        by_contra hne
        exact hne (hsnoc a ha hne ▸ hwrong)
      · intro a ha hne
        obtain rfl := hsnoc a ha hne
        exact ⟨List.getLast?_concat, rfl⟩

/-- The result is an answer that was received, and all answers come from the network. -/
def FromNet (args : GetArgs) (net : Net) (r : Result) : Prop :=
  (∀ reply, r.reply = some reply → ∃ a ∈ r.received, a.reply args = reply) ∧
    ∀ a ∈ r.received, ∃ called serverID, net called = .done serverID a

lemma fromNet_callLoop (servers : List GoString) (leaderId : ℕ) (offs : List ℕ)
    (called : List (ℕ × GoString)) {r : Result} (h : FromNet args net r) :
    FromNet args net (callLoop args servers leaderId net offs called r) := by
  induction offs generalizing called r with
  | nil => exact h
  | cons off offs ih =>
    rw [callLoop]
    dsimp only
    split
    · exact ih _ h
    · next serverID answer hnet =>
      have hsnoc : FromNet args net
          ⟨serverID, some (answer.reply args), r.received ++ [answer]⟩ := by
        refine ⟨fun reply hreply => ⟨answer, by simp, Option.some.inj hreply⟩, fun a ha => ?_⟩
        rcases List.mem_append.mp ha with ha | ha
        · exact h.2 a ha
        · obtain rfl := List.mem_singleton.mp ha
          exact ⟨_, serverID, hnet⟩
      split
      · exact ih _ hsnoc
      · exact hsnoc

lemma callOtherGroup_spec (ck : Clerk) (args : GetArgs) (gid : ℕ) (servers : List GoString)
    (net : Net) : Settles args (ck.callOtherGroup args gid servers net).2 ∧
      FromNet args net (ck.callOtherGroup args gid servers net).2 :=
  ⟨settles_callLoop _ _ _ _ _ fun _ ha => absurd ha List.not_mem_nil,
    fromNet_callLoop _ _ _ _ ⟨fun _ h => (nomatch h), fun _ ha => absurd ha List.not_mem_nil⟩⟩

/-- An answer with a value is the last one that is seen, and it is what is returned. -/
def Returns (args : GetArgs) (g : Getting) : Prop :=
  ∀ a ∈ g.seen, (a.reply args).err = .ok →
    g.seen.getLast? = some a ∧ g.value = some (a.reply args).value

/-- Only a value that was answered is returned. -/
def ReturnsAnswer (args : GetArgs) (g : Getting) : Prop :=
  ∀ value, g.value = some value → ∃ a ∈ g.seen, a.reply args = ⟨.ok, value⟩

lemma attempt_spec (ck : Clerk) (args : GetArgs) (net : Net) :
    Returns args (ck.attempt args net) ∧ ReturnsAnswer args (ck.attempt args net) ∧
      ∀ a ∈ (ck.attempt args net).seen, ∃ called serverID, net called = .done serverID a := by
  unfold Clerk.attempt
  dsimp only
  split
  · exact ⟨fun a ha => absurd ha List.not_mem_nil, fun v hv => (nomatch hv),
      fun a ha => absurd ha List.not_mem_nil⟩
  · next servers _ =>
    obtain ⟨hsettles, hsound, hnet⟩ := callOtherGroup_spec ck args
      (ck.config.shards (key2shard args.key)) servers net
    split
    · next hreply =>
      refine ⟨fun a ha hok => ?_, fun v hv => (nomatch hv), hnet⟩
      have hr := (hsettles a ha (by simp [hok])).2
      rw [hreply] at hr
      cases hr
    · next getReply hreply =>
      refine ⟨fun a ha hok => ?_, fun value hvalue => ?_, hnet⟩
      · obtain ⟨hlast, hr⟩ := hsettles a ha (by simp [hok])
        obtain rfl := Option.some.inj (hreply.symm.trans hr)
        exact ⟨hlast, if_pos hok⟩
      · obtain ⟨a, ha, rfl⟩ := hsound getReply hreply
        dsimp only at hvalue
        split at hvalue
        · next hok =>
          obtain rfl := Option.some.inj hvalue
          exact ⟨a, ha, by rw [← hok]⟩
        · cases hvalue

/-! ### All rounds -/

lemma getLoop_spec (args : GetArgs) (rounds : List Round) (ck : Clerk) :
    Returns args (Clerk.getLoop args rounds ck) ∧
      ReturnsAnswer args (Clerk.getLoop args rounds ck) ∧
      ∀ a ∈ (Clerk.getLoop args rounds ck).seen, ∃ round ∈ rounds, ∃ called serverID,
        round.net called = .done serverID a := by
  induction rounds generalizing ck with
  | nil =>
    exact ⟨fun a ha => absurd ha List.not_mem_nil, fun v hv => (nomatch hv),
      fun a ha => absurd ha List.not_mem_nil⟩
  | cons round rounds ih =>
    obtain ⟨hret, hans, hnet⟩ := attempt_spec ck args round.net
    rw [Clerk.getLoop]
    dsimp only
    split
    · next value hvalue =>
      refine ⟨fun a ha hok => ?_, fun v hv => ?_, fun a ha => ⟨round, by simp, hnet a ha⟩⟩
      · rw [← hvalue]
        exact hret a ha hok
      · exact hans v (hvalue.trans hv)
    · next hvalue =>
      obtain ⟨hret', hans', hnet'⟩ := ih { (ck.attempt args round.net).clerk with
        config := round.latest }
      refine ⟨fun a ha hok => ?_, fun v hv => ?_, fun a ha => ?_⟩
      · rcases List.mem_append.mp ha with ha | ha
        · -- a value in this round would have been returned
          rw [(hret a ha hok).2] at hvalue
          cases hvalue
        · obtain ⟨hlast, hval⟩ := hret' a ha hok
          refine ⟨?_, hval⟩
          rw [List.getLast?_append, hlast]
          rfl
      · obtain ⟨a, ha, hreply⟩ := hans' v hv
        exact ⟨a, List.mem_append_right _ ha, hreply⟩
      · rcases List.mem_append.mp ha with ha | ha
        · exact ⟨round, by simp, hnet a ha⟩
        · obtain ⟨round', hr', hnet''⟩ := hnet' a ha
          exact ⟨round', List.mem_cons_of_mem _ hr', hnet''⟩

lemma mem_seen_of_attempt {round : Round} (rounds : List Round)
    (ha : a ∈ (ck.attempt args round.net).seen) :
    a ∈ (Clerk.getLoop args (round :: rounds) ck).seen := by
  rw [Clerk.getLoop]
  dsimp only
  split
  · exact ha
  · exact List.mem_append_left _ ha

lemma get_of_mem {kv : ShardKV} {key : GoString} (hown : Owns kv key)
    (hkey : key ∈ kv.store (key2shard key)) :
    ∃ value, (kv.store (key2shard key)).lookup key = some value ∧ kv.get key = (value, .ok) := by
  obtain ⟨value, hvalue⟩ := Finmap.mem_iff.mp hkey
  refine ⟨value, hvalue, ?_⟩
  have hnot : ¬ kv.gid ≠ kv.config.shards (key2shard key) := not_not.mpr hown
  unfold ShardKV.get
  dsimp only
  rw [if_neg hnot, hvalue]

lemma mem_of_get {kv : ShardKV} {key value : GoString} (h : kv.get key = (value, .ok)) :
    key ∈ kv.store (key2shard key) := by
  unfold ShardKV.get at h
  dsimp only at h
  split at h
  · cases h
  · split at h
    · cases h
    · next hvalue => exact Finmap.mem_of_lookup_eq_some hvalue

/-- What is returned is the value that a server has answered. -/
theorem value_of_get {ck : Clerk} {key value : GoString} {rounds : List Round}
    (h : (ck.get key rounds).value = some value) :
    ∃ kv, .read kv ∈ (ck.get key rounds).seen ∧ kv.get key = (value, .ok) := by
  obtain ⟨a, ha, hreply⟩ :=
    (getLoop_spec _ rounds { ck with seqNum := ck.seqNum + 1 }).2.1 value h
  cases a with
  | refused => cases hreply
  | read kv =>
    have herr : (kv.get key).2 = .ok := congrArg GetReply.err hreply
    have hvalue : (kv.get key).1 = value := congrArg GetReply.value hreply
    exact ⟨kv, ha, Prod.ext hvalue herr⟩

lemma returned_of_get {key value : GoString} {rounds : List Round} {kv : ShardKV}
    (hseen : .read kv ∈ (ck.get key rounds).seen) (hget : kv.get key = (value, .ok)) :
    (ck.get key rounds).seen.getLast? = some (.read kv) ∧
      (ck.get key rounds).value = some value := by
  have hreply : Answer.reply ⟨key, ck.seqNum + 1, ck.clientId⟩ (.read kv) = ⟨.ok, value⟩ := by
    simp only [Answer.reply, hget]
  obtain ⟨hlast, hvalue⟩ := (getLoop_spec _ rounds { ck with seqNum := ck.seqNum + 1 }).1 _ hseen
    (by rw [hreply])
  rw [hreply] at hvalue
  exact ⟨hlast, hvalue⟩

/-- **What is there is found, and only that.** When the clerk sees the answer of a server whose
group has the shard, it returns what that store has for the key, or the empty string, exactly if
the store has the key. -/
theorem get_returns (ck : Clerk) (key : GoString) (rounds : List Round) (kv : ShardKV)
    (hseen : .read kv ∈ (ck.get key rounds).seen) (hown : Owns kv key) :
    ((ck.get key rounds).seen.getLast? = some (.read kv) ∧
      (ck.get key rounds).value = some (((kv.store (key2shard key)).lookup key).getD [])) ↔
    key ∈ kv.store (key2shard key) := by
  constructor
  · rintro ⟨hlast, hvalue⟩
    -- what is returned is the value of some answer, and that is the last one too
    obtain ⟨kv', hseen', hget⟩ := value_of_get hvalue
    have hlast' := (returned_of_get hseen' hget).1
    obtain rfl := Answer.read.inj (Option.some.inj (hlast.symm.trans hlast'))
    exact mem_of_get hget
  · intro hkey
    obtain ⟨value, hlookup, hget⟩ := get_of_mem hown hkey
    rw [hlookup]
    exact returned_of_get hseen hget

/-- One group with two servers has all shards. -/
def single : Config := ⟨1, fun _ => 1, Finmap.insert 1 [[0], [1]] ∅⟩

def settled (log : List Op) : ShardKV := replay 1 (.setConfig ⟨single, 1, .server 1 0 0⟩ :: log)

def fresh : Clerk := ⟨single, 0, .clerk 0, ∅⟩

/-- The first server refuses, the second one answers. -/
def second (kv : ShardKV) : Round where
  net := fun called => if called.length = 1 then .done 0 .refused else .done 1 (.read kv)
  latest := single

/-- A round without an answer, and one with the value. -/
theorem get_returns_second :
    (fresh.get [7] [⟨fun _ => .timeout, single⟩,
      second (settled [.putAppend ⟨[7], [1], .put, 1, .clerk 1⟩])]).value = some [1] := by
  have hiff := get_returns fresh [7] [⟨fun _ => .timeout, single⟩,
    second (settled [.putAppend ⟨[7], [1], .put, 1, .clerk 1⟩])]
    (settled [.putAppend ⟨[7], [1], .put, 1, .clerk 1⟩]) (.tail _ (.head _)) rfl
  have hlookup : ((settled [.putAppend ⟨[7], [1], .put, 1, .clerk 1⟩]).store
      (key2shard [7])).lookup [7] = some [1] := by decide +kernel
  have hvalue := (hiff.mpr (Finmap.mem_of_lookup_eq_some hlookup)).2
  rw [hlookup] at hvalue
  exact hvalue

/-- A key that is not there: the group that has its shard says so in every round, and the clerk
never returns. -/
theorem get_absent_never_returns :
    (Replica 1 [.setConfig ⟨single, 1, .server 1 0 0⟩] (settled []) ∧ Owns (settled []) [7] ∧
        (settled []).get [7] = ([], .errNoKey)) ∧
      ∀ n, .read (settled []) ∈
          (fresh.get [7] (List.replicate (n + 1) (second (settled [])))).seen ∧
        (fresh.get [7] (List.replicate n (second (settled [])))).value = none := by
  have hget : (settled []).get [7] = ([], .errNoKey) := by decide +kernel
  refine ⟨⟨replica_replay 1 _, rfl, hget⟩, fun n => ⟨?_, ?_⟩⟩
  · rw [List.replicate_succ]
    exact mem_seen_of_attempt _ (.tail _ (.head _))
  · cases hvalue : (fresh.get [7] (List.replicate n (second (settled [])))).value with
    | none => rfl
    | some value =>
      -- whatever is returned was answered, and all answers are the same
      obtain ⟨kv, hseen, hkv⟩ := value_of_get hvalue
      obtain ⟨round, hround, called, serverID, hnet⟩ := (getLoop_spec _ _ _).2.2 _ hseen
      obtain rfl := (List.mem_replicate.mp hround).2
      simp only [second] at hnet
      split at hnet
      · cases hnet
      · cases hnet
        rw [hget] at hkv
        cases hkv

end Mit6824.ShardClerk
