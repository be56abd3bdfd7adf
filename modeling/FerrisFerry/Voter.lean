import FerrisFerry.Vote

/-!
# One vote per term across crashes

One core that executes its actions in order and may crash between any two of them. It is
rebuilt from the last `PersistMetadata` it executed, with any log and any snapshot. All that
is left of its lives is the list of the executed actions (`Voter.executed`).

`Action.Allowed` says what an action may do, given the last executed metadata : metadata may
raise the term or fill in a missing vote, and a vote is asked for or granted only as the
metadata says. Every call returns such a list (`RaftCore.VoteMove.lawful`), and so is every
beginning of it, so a crash at any action leaves a history in which the node has named one
candidate per term (`Voter.one_vote_per_term`).
-/

namespace FerrisFerry

/-- The metadata an action persists. -/
def Action.metadata : Action → Option PersistedMetadata
  | .persistMetadata term votedFor => some ⟨term, votedFor⟩
  | _ => none

namespace PersistedMetadata

/-- The metadata on disk after an action. -/
def after (m : PersistedMetadata) (a : Action) : PersistedMetadata :=
  a.metadata.getD m

theorem foldl_after (m : PersistedMetadata) (actions : List Action) :
    actions.foldl after m = (actions.filterMap Action.metadata).getLast?.getD m := by
  induction actions generalizing m with
  | nil => rfl
  | cons a actions ih =>
    rw [List.foldl_cons, ih, after]
    cases ha : a.metadata with
    | none => rw [List.filterMap_cons_none ha, Option.getD_none]
    | some m' =>
      rw [List.filterMap_cons_some ha, List.getLast?_cons, Option.getD_some, Option.getD_some]

end PersistedMetadata

/-! ## Lawful actions -/

/-- What an action may do with the metadata `m` on disk of node `id`. -/
def Action.Allowed (id : NodeId) (m : PersistedMetadata) : Action → Prop
  | .persistMetadata term votedFor =>
    m.term ≤ term ∧ (m.term = term → m.votedFor = none ∨ votedFor = m.votedFor)
  | .sendMessage _ (.requestVote req) => req.term = m.term ∧ m.votedFor = some id
  | .sendMessage dst (.requestVoteResponse resp) =>
    resp.voteGranted = true → resp.term = m.term ∧ m.votedFor = some dst
  | _ => True

/-- Each action is allowed by the metadata the ones before it leave. -/
def Lawful (id : NodeId) : PersistedMetadata → List Action → Prop
  | _, [] => True
  | m, a :: actions => a.Allowed id m ∧ Lawful id (m.after a) actions

namespace Lawful

variable {id : NodeId} {m : PersistedMetadata} {actions : List Action}

theorem append {as bs : List Action} (h : Lawful id m as)
    (h' : Lawful id (as.foldl PersistedMetadata.after m) bs) : Lawful id m (as ++ bs) := by
  induction as generalizing m with
  | nil => exact h'
  | cons a as ih => exact ⟨h.1, ih h.2 h'⟩

/-- A crash leaves a beginning of the list. -/
theorem take (h : Lawful id m actions) (n : ℕ) : Lawful id m (actions.take n) := by
  induction actions generalizing m n with
  | nil => rwa [List.take_nil]
  | cons a actions ih =>
    cases n with
    | zero => trivial
    | succ n => exact ⟨h.1, ih h.2 n⟩

theorem of_quiet (m : PersistedMetadata) (h : ∀ a ∈ actions, a.Quiet) :
    Lawful id m actions ∧ actions.foldl PersistedMetadata.after m = m := by
  induction actions with
  | nil => exact ⟨trivial, rfl⟩
  | cons a actions ih =>
    have ha := h a List.mem_cons_self
    have hm : m.after a = m := by
      cases a with
      | persistMetadata => exact ha.elim
      | _ => rfl
    have hallowed : a.Allowed id m := by
      cases a with
      | persistMetadata => exact ha.elim
      | sendMessage dst msg =>
        cases msg with
        | requestVote => exact ha.elim
        | requestVoteResponse resp =>
          intro hg
          rw [show resp.voteGranted = false from ha] at hg
          cases hg
        | _ => trivial
      | _ => trivial
    obtain ⟨h1, h2⟩ := ih fun b hb => h b (List.mem_cons_of_mem a hb)
    exact ⟨⟨hallowed, hm.symm ▸ h1⟩, by rw [List.foldl_cons, hm, h2]⟩

theorem metadata {t : ℕ} {v : Option NodeId} (ht : m.term ≤ t)
    (hv : m.term = t → m.votedFor = none ∨ v = m.votedFor) (h : Lawful id ⟨t, v⟩ actions) :
    Lawful id m (.persistMetadata t v :: actions) :=
  ⟨⟨ht, hv⟩, h⟩

end Lawful

namespace RaftCore

variable {core core' : RaftCore} {request : Request} {actions : List Action}

/-- The term and the vote a core has to remember. -/
def metadata (core : RaftCore) : PersistedMetadata :=
  ⟨core.currentTerm, core.votedFor⟩

/-- The term check persists a higher term without a vote. -/
theorem lawful_termActions (core : RaftCore) (t : ℕ) :
    Lawful core.id core.metadata (core.termActions t) ∧
      (core.termActions t).foldl PersistedMetadata.after core.metadata =
        if core.currentTerm < t then ⟨t, none⟩ else core.metadata := by
  unfold termActions
  split_ifs with h
  · exact ⟨.metadata h.le (fun heq => absurd heq h.ne) trivial, rfl⟩
  · exact ⟨trivial, rfl⟩

/-- Every call returns lawful actions and leaves its term and vote on disk. -/
theorem VoteMove.lawful (h : core.VoteMove request core' actions) :
    Lawful core.id core.metadata actions ∧
      actions.foldl PersistedMetadata.after core.metadata = core'.metadata := by
  cases h with
  | keep ht hv hs hp hq =>
    obtain ⟨h1, h2⟩ := Lawful.of_quiet core.metadata hq
    exact ⟨h1, h2.trans (by rw [metadata, metadata, ht, hv])⟩
  | @bump _ _ rest ht hv hs hq =>
    obtain ⟨h1, h2⟩ := Lawful.of_quiet ⟨core'.currentTerm, none⟩ hq
    exact ⟨.metadata ht.le (fun heq => absurd heq ht.ne) h1, h2.trans (by rw [metadata, hv])⟩
  | stand hl rnd =>
    have hsends : ∀ peers : List NodeId,
        Lawful core.id (core.stand rnd).metadata
          (peers.map fun peer => .sendMessage peer (.requestVote (core.stand rnd).voteRequest)) ∧
        (peers.map fun peer => Action.sendMessage peer
          (.requestVote (core.stand rnd).voteRequest)).foldl PersistedMetadata.after
            (core.stand rnd).metadata = (core.stand rnd).metadata := by
      intro peers
      induction peers with
      | nil => exact ⟨trivial, rfl⟩
      | cons peer peers ih => exact ⟨⟨⟨rfl, rfl⟩, ih.1⟩, ih.2⟩
    obtain ⟨h1, h2⟩ := hsends core.peers
    exact ⟨.metadata (Nat.le_succ _) (fun h => absurd h (Nat.succ_ne_self _).symm) h1, h2⟩
  | @grant req _ ht hv hp ht' hv' =>
    obtain ⟨h1, h2⟩ := lawful_termActions core req.term
    refine ⟨h1.append ?_, ?_⟩
    · rw [h2]
      split_ifs with hlt
      · exact .metadata le_rfl (fun _ => Or.inl rfl) ⟨fun _ => ⟨rfl, rfl⟩, trivial⟩
      · refine .metadata ht (fun _ => ?_) ⟨fun _ => ⟨rfl, rfl⟩, trivial⟩
        exact (hv.resolve_left hlt).imp_right Eq.symm
    · have hm : core'.metadata = ⟨req.term, some req.candidateId⟩ := by rw [metadata, ht', hv']
      rw [List.foldl_append, hm]
      rfl
  | collect => exact ⟨trivial, rfl⟩
  | win ht hc hg hq hn rnd =>
    obtain ⟨h1, h2⟩ := Lawful.of_quiet core.metadata hn
    exact ⟨⟨trivial, h1⟩, h2⟩

end RaftCore

/-! ## Histories -/

/-- The actions name `x` as the candidate of node `id` in term `t` : by a vote granted to `x`,
or by a request for the node itself. -/
def Names (id : NodeId) (actions : List Action) (t : ℕ) (x : NodeId) : Prop :=
  (∃ resp, .sendMessage x (.requestVoteResponse resp) ∈ actions ∧ resp.voteGranted = true ∧
    resp.term = t) ∨
  x = id ∧ ∃ dst req, .sendMessage dst (.requestVote req) ∈ actions ∧ req.term = t

/-- The metadata that was last persisted by `actions`, `⟨0, none⟩` if there was none. -/
def lastMetadata (actions : List Action) : PersistedMetadata :=
  actions.foldl PersistedMetadata.after ⟨0, none⟩

/-- The terms persisted by `actions`, in order. -/
def persistedTerms (actions : List Action) : List ℕ :=
  (actions.filterMap Action.metadata).map PersistedMetadata.term

/-- A history in which terms do not go back and each names one candidate. -/
structure SingleVote (id : NodeId) (actions : List Action) : Prop where
  sorted : (persistedTerms actions).Pairwise (· ≤ ·)
  le_last : ∀ t ∈ persistedTerms actions, t ≤ (lastMetadata actions).term
  /-- The last metadata knows every vote of its term. -/
  binds : ∀ t x, Names id actions t x → t ≤ (lastMetadata actions).term ∧
    (t = (lastMetadata actions).term → (lastMetadata actions).votedFor = some x)
  unique : ∀ t x y, Names id actions t x → Names id actions t y → x = y

namespace SingleVote

variable {id : NodeId} {actions : List Action} {a : Action}

theorem lastMetadata_concat (actions : List Action) (a : Action) :
    lastMetadata (actions ++ [a]) = (lastMetadata actions).after a :=
  List.foldl_concat _ _ _ _

/-- A name is old, or given by the last action as the metadata before it says. -/
theorem names_concat {t : ℕ} {x : NodeId} (ha : a.Allowed id (lastMetadata actions))
    (h : Names id (actions ++ [a]) t x) : Names id actions t x ∨
      t = (lastMetadata actions).term ∧ (lastMetadata actions).votedFor = some x ∧
        (lastMetadata actions).after a = lastMetadata actions := by
  rcases h with ⟨resp, hm, hg, rfl⟩ | ⟨rfl, dst, req, hm, rfl⟩
  · rcases List.mem_append.mp hm with hm | hm
    · exact Or.inl (Or.inl ⟨resp, hm, hg, rfl⟩)
    · obtain rfl := List.mem_singleton.mp hm
      exact Or.inr ⟨(ha hg).1, (ha hg).2, rfl⟩
  · rcases List.mem_append.mp hm with hm | hm
    · exact Or.inl (Or.inr ⟨rfl, dst, req, hm, rfl⟩)
    · obtain rfl := List.mem_singleton.mp hm
      exact Or.inr ⟨ha.1, ha.2, rfl⟩

/-- One allowed action. -/
theorem concat (h : SingleVote id actions) (ha : a.Allowed id (lastMetadata actions)) :
    SingleVote id (actions ++ [a]) := by
  -- the metadata moves on, and keeps a vote of its term
  have hterm : (lastMetadata actions).term ≤ ((lastMetadata actions).after a).term ∧
      ((lastMetadata actions).term = ((lastMetadata actions).after a).term →
        (lastMetadata actions).votedFor = none ∨
          ((lastMetadata actions).after a).votedFor = (lastMetadata actions).votedFor) := by
    cases a with
    | persistMetadata t v => exact ha
    | _ => exact ⟨le_rfl, fun _ => Or.inr rfl⟩
  have hbinds : ∀ t x, Names id actions t x → t ≤ ((lastMetadata actions).after a).term ∧
      (t = ((lastMetadata actions).after a).term →
        ((lastMetadata actions).after a).votedFor = some x) := by
    intro t x hx
    obtain ⟨hle, hv⟩ := h.binds t x hx
    refine ⟨hle.trans hterm.1, fun heq => ?_⟩
    have ht : t = (lastMetadata actions).term := le_antisymm hle (heq ▸ hterm.1)
    rcases hterm.2 (ht.symm.trans heq) with hn | hk
    · rw [hv ht] at hn
      cases hn
    · rw [hk, hv ht]
  have hterms : persistedTerms (actions ++ [a]) =
      persistedTerms actions ++ (a.metadata.map PersistedMetadata.term).toList := by
    rw [persistedTerms, List.filterMap_append, List.map_append]
    cases a <;> rfl
  have hnew : ∀ t ∈ (a.metadata.map PersistedMetadata.term).toList,
      t = ((lastMetadata actions).after a).term := by
    cases a with
    | persistMetadata t v => simp [Action.metadata, PersistedMetadata.after]
    | _ => simp [Action.metadata]
  refine ⟨?_, ?_, ?_, ?_⟩
  · rw [hterms, List.pairwise_append]
    refine ⟨h.sorted, ?_, fun t ht t' ht' => ?_⟩
    · cases a.metadata.map PersistedMetadata.term <;> simp
    · rw [hnew t' ht']
      exact (h.le_last t ht).trans hterm.1
  · intro t ht
    rw [lastMetadata_concat]
    rw [hterms] at ht
    rcases List.mem_append.mp ht with ht | ht
    · exact (h.le_last t ht).trans hterm.1
    · exact (hnew t ht).le
  · intro t x hx
    rw [lastMetadata_concat]
    rcases names_concat ha hx with hx | ⟨rfl, hv, hsame⟩
    · exact hbinds t x hx
    · rw [hsame]
      exact ⟨le_rfl, fun _ => hv⟩
  · intro t x y hx hy
    rcases names_concat ha hx with hx | ⟨htx, hvx, -⟩
    · rcases names_concat ha hy with hy | ⟨hty, hvy, -⟩
      · exact h.unique t x y hx hy
      · exact Option.some.inj (((h.binds t x hx).2 hty).symm.trans hvy)
    · rcases names_concat ha hy with hy | ⟨-, hvy, -⟩
      · exact Option.some.inj (hvx.symm.trans ((h.binds t y hy).2 htx))
      · exact Option.some.inj (hvx.symm.trans hvy)

/-- A lawful list of actions. -/
theorem append {more : List Action} (h : SingleVote id actions)
    (hl : Lawful id (lastMetadata actions) more) : SingleVote id (actions ++ more) := by
  induction more generalizing actions with
  | nil => rwa [List.append_nil]
  | cons a more ih =>
    have hstep := ih (h.concat hl.1) (by rw [lastMetadata_concat]; exact hl.2)
    rwa [List.append_assoc] at hstep

end SingleVote

/-! ## A core that crashes -/

/-- A core and the actions it has executed, in order. -/
structure Voter where
  core : RaftCore
  executed : List Action

/-- What a restart finds besides the metadata, and the timeout it draws. -/
structure Restart where
  rnd : ℕ
  log : List LogEntry
  /-- Index and term of a snapshot. -/
  snapshot : Option (ℕ × ℕ)

inductive VoterInput where
  | call (request : Request) (rnd : ℕ)
  /-- A crash after the first `done` actions of a call; with `done = 0`, before the call. -/
  | crash (request : Request) (rnd done : ℕ) (restart : Restart)

namespace Config

variable (cfg : Config) (n : NodeId)

/-- The core rebuilt from the last executed `PersistMetadata`. -/
def rebuild (executed : List Action) (restart : Restart) : RaftCore :=
  match (executed.filterMap Action.metadata).getLast? with
  | none => RaftCore.new n cfg.nodes (cfg.heartbeatInterval n) (cfg.electionRange n) restart.rnd
  | some metadata =>
    match restart.snapshot with
    | none => RaftCore.restore n cfg.nodes (cfg.heartbeatInterval n) (cfg.electionRange n)
        restart.rnd metadata.term metadata.votedFor restart.log
    | some (lastIncludedIndex, lastIncludedTerm) =>
      RaftCore.restoreWithSnapshot n cfg.nodes (cfg.heartbeatInterval n) (cfg.electionRange n)
        restart.rnd metadata.term metadata.votedFor restart.log lastIncludedIndex lastIncludedTerm

/-- One node with its crashes as a machine. -/
def voter : Machine Voter VoterInput where
  step v
    | .call request rnd => do
      let (after, actions) ← v.core.call rnd request
      some ⟨after, v.executed ++ actions⟩
    | .crash request rnd done restart => do
      let (_, actions) ← v.core.call rnd request
      let executed := v.executed ++ actions.take done
      some ⟨cfg.rebuild n executed restart, executed⟩

/-- The first start. -/
def firstVoter : Voter :=
  ⟨cfg.boot n, []⟩

theorem rebuild_metadata (executed : List Action) (restart : Restart) :
    (cfg.rebuild n executed restart).id = n ∧
      (cfg.rebuild n executed restart).metadata = lastMetadata executed := by
  rw [lastMetadata, PersistedMetadata.foldl_after, rebuild]
  split
  next h =>
    rw [h]
    exact ⟨rfl, rfl⟩
  next m h =>
    rw [h]
    split <;> exact ⟨rfl, rfl⟩

end Config

namespace Voter

variable {cfg : Config} {n : NodeId} {v v' : Voter}

/-- What holds of a node between calls : its term and vote are on disk, and its history
names one candidate per term. -/
structure Bound (n : NodeId) (v : Voter) : Prop where
  id : v.core.id = n
  disk : v.core.metadata = lastMetadata v.executed
  history : SingleVote n v.executed

theorem lastMetadata_append (as bs : List Action) :
    lastMetadata (as ++ bs) = bs.foldl PersistedMetadata.after (lastMetadata as) :=
  List.foldl_append

theorem Bound.step {i : VoterInput} (h : Bound n v) (hs : (cfg.voter n).step v i = some v') :
    Bound n v' := by
  cases i with
  | call request rnd =>
    obtain ⟨⟨after, actions⟩, hc, hv⟩ := Option.bind_eq_some_iff.mp hs
    obtain rfl := Option.some.inj hv
    have ho := RaftCore.call_outcome hc
    obtain ⟨hl, hd⟩ := ho.voteMove.lawful
    rw [h.id, h.disk] at hl
    rw [h.disk] at hd
    exact ⟨ho.id_eq.1.trans h.id, hd.symm.trans (lastMetadata_append _ _).symm, h.history.append hl⟩
  | crash request rnd done restart =>
    obtain ⟨⟨after, actions⟩, hc, hv⟩ := Option.bind_eq_some_iff.mp hs
    obtain rfl := Option.some.inj hv
    obtain ⟨hl, -⟩ := (RaftCore.call_outcome hc).voteMove.lawful
    rw [h.id, h.disk] at hl
    obtain ⟨hid, hm⟩ := cfg.rebuild_metadata n (v.executed ++ actions.take done) restart
    exact ⟨hid, hm, h.history.append (hl.take done)⟩

theorem bound_firstVoter (cfg : Config) (n : NodeId) : Bound n (cfg.firstVoter n) := by
  refine ⟨rfl, rfl, List.Pairwise.nil, ?_, ?_, ?_⟩
  · intro t ht
    simp [persistedTerms, Config.firstVoter] at ht
  · intro t x hx
    simp [Names, Config.firstVoter] at hx
  · intro t x y hx
    simp [Names, Config.firstVoter] at hx

/-- One vote per term across crashes : the persisted terms do not go back, and all votes a
node has sent for one term, its own candidacy included, name one candidate. -/
theorem one_vote_per_term (h : (cfg.voter n).Run (fun _ _ => True) (cfg.firstVoter n) v) :
    (persistedTerms v.executed).Pairwise (· ≤ ·) ∧
      ∀ t x y, Names n v.executed t x → Names n v.executed t y → x = y := by
  have hb : Bound n v := h.invariant (bound_firstVoter cfg n) fun _ _ _ hb _ hs => hb.step hs
  exact ⟨hb.history.sorted, hb.history.unique⟩

/-- A node stands in term 1, grants its vote of term 2, crashes, and is asked for that vote
again. -/
theorem one_vote_per_term_crash :
    ∃ v, (Config.trio.voter 1).Run (fun _ _ => True) (Config.trio.firstVoter 1) v ∧
      v.core.currentTerm = 2 ∧ Names 1 v.executed 1 1 ∧ Names 1 v.executed 2 3 ∧
      ∀ x, Names 1 v.executed 2 x → x = 3 := by
  obtain ⟨v, hrun, hterm, hstood, hgranted⟩ := (Config.trio.voter 1).exists_run_of_exec
    (fun _ _ => True) (Config.trio.firstVoter 1)
    [.call .tick 1, .crash (.message (.requestVote ⟨2, 3, 0, 0⟩)) 1 3 ⟨1, [], none⟩,
      .call (.message (.requestVote ⟨2, 2, 0, 0⟩)) 1]
    (fun v => v.core.currentTerm = 2 ∧ .sendMessage 2 (.requestVote ⟨1, 1, 0, 0⟩) ∈ v.executed ∧
      .sendMessage 3 (.requestVoteResponse ⟨1, 2, true⟩) ∈ v.executed)
    (by decide +kernel) (Machine.execOk_true _ _)
  have hnames : Names 1 v.executed 2 3 := Or.inl ⟨_, hgranted, rfl, rfl⟩
  exact ⟨v, hrun, hterm, Or.inr ⟨rfl, _, _, hstood, rfl⟩, hnames,
    fun x hx => (one_vote_per_term hrun).2 2 x 3 hx hnames⟩

end Voter

end FerrisFerry
