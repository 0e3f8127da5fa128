import Kiwi.Lib.KeySet
import Kiwi.Raft.StateMachine
import Mathlib.Data.Countable.Basic
import Mathlib.Data.Fintype.EquivFin
import Mathlib.Logic.Equiv.List

/-!
# Raft messages on the wire

The nodes exchange openraft messages as protobuf messages. `raft/conversion.rs` has, for every
message, one function that makes the protobuf message and one that reads it back. `Proto` holds the
protobuf types, whose message fields are optional; the conversions carry the names of their types.

Binlogs travel in the format of `bincode`, and the text of an error quotes the text of another; both
formats are parameters (`Wire`). A membership has a set of voters for every configuration, two of
them while the voters change, and an address for every voter and learner.
-/

namespace Kiwi.Raft

/-! ### openraft -/

structure KiwiNode where
  raftAddr : String := ""
  respAddr : String := ""
deriving DecidableEq, Repr

/-- `openraft::Membership`. Its constructors give every voter a node. -/
@[ext]
structure Membership where
  /-- The voters of every configuration. -/
  configs : List (Finset ℕ)
  /-- The nodes, learners included. -/
  nodes : SortedMap ℕ KiwiNode
  voter_mem : ∀ config ∈ configs, ∀ id ∈ config, (nodes.get id).isSome

/-- The voters of all configurations. -/
def voterIds (configs : List (Finset ℕ)) : Finset ℕ := configs.foldr (· ∪ ·) ∅

@[simp] theorem mem_voterIds {configs : List (Finset ℕ)} {id : ℕ} :
    id ∈ voterIds configs ↔ ∃ config ∈ configs, id ∈ config := by
  induction configs with
  | nil => simp [voterIds]
  | cons config configs ih =>
    rw [voterIds, List.foldr_cons, Finset.mem_union, ← voterIds, ih, List.exists_mem_cons_iff]

/-- `Membership::new`: a voter that is not among the nodes gets an empty address. -/
def Membership.new (configs : List (Finset ℕ)) (nodes : SortedMap ℕ KiwiNode) : Membership where
  configs := configs
  nodes := (SortedMap.empty.insertAll (((voterIds configs).sort (· ≤ ·)).map fun id ↦
    (id, ({} : KiwiNode)))).insertAll nodes.rows
  voter_mem config hconfig id hid := by
    rw [← SortedMap.mem_keySet, SortedMap.keySet_insertAll, SortedMap.keySet_insertAll,
      Finset.mem_union, Finset.mem_union]
    refine Or.inl (Or.inr ?_)
    rw [List.mem_toFinset, List.map_map]
    exact List.mem_map.2 ⟨id, (Finset.mem_sort _).2 (mem_voterIds.2 ⟨config, hconfig, hid⟩), rfl⟩

structure VoteRequest where
  vote : Vote
  /-- The last entry of the candidate. -/
  lastLogId : Option LogId
deriving DecidableEq, Repr

structure VoteResponse where
  vote : Vote
  voteGranted : Bool
  lastLogId : Option LogId
deriving DecidableEq, Repr

structure AppendEntriesRequest where
  vote : Vote
  prevLogId : Option LogId
  entries : List (Entry (Payload Membership))
  /-- The last entry that is committed. -/
  leaderCommit : Option LogId

inductive AppendEntriesResponse
  | success
  | partialSuccess (matching : Option LogId)
  | conflict
  | higherVote (vote : Vote)
deriving DecidableEq, Repr

/-! ### protobuf -/

namespace Proto

structure NodeId where
  id : ℕ

structure LeaderId where
  term : ℕ
  nodeId : Option NodeId

structure LogId where
  leaderId : Option LeaderId
  index : ℕ

structure Vote where
  leaderId : Option LeaderId
  /-- Whether a quorum granted it. -/
  committed : Bool

structure NodeConfig where
  nodeId : ℕ
  raftAddr : String
  respAddr : String

/-- `entry_payload::Payload`. -/
inductive Payload
  | blank
  | normal (data : Bytes)
  | membership (nodeIds : List ℕ) (nodes : List NodeConfig)

structure EntryPayload where
  /-- The one that is set. -/
  payload : Option Payload

structure Entry where
  logId : Option LogId
  payload : Option EntryPayload

structure VoteRequest where
  vote : Option Vote
  /-- The last entry of the candidate. -/
  lastLogId : Option LogId

structure VoteResponse where
  vote : Option Vote
  voteGranted : Bool
  lastLogId : Option LogId

structure AppendEntriesRequest where
  vote : Option Vote
  prevLogId : Option LogId
  entries : List Entry
  /-- The last entry that is committed. -/
  leaderCommit : Option LogId

inductive AppendEntriesResult
  | unspecified
  | success
  | conflict
  | higherVote

/-- The number of a result. -/
def AppendEntriesResult.toI32 : AppendEntriesResult → ℤ
  | unspecified => 0
  | success => 1
  | conflict => 2
  | higherVote => 3

/-- `AppendEntriesResult::try_from`. -/
def AppendEntriesResult.tryFrom : ℤ → Option AppendEntriesResult
  | 0 => some unspecified
  | 1 => some success
  | 2 => some conflict
  | 3 => some higherVote
  | _ => none

@[simp] theorem AppendEntriesResult.tryFrom_toI32 (r : AppendEntriesResult) :
    tryFrom r.toI32 = some r := by
  cases r <;> rfl

structure AppendEntriesResponse where
  /-- Whether the entries were appended. -/
  success : Bool
  result : ℤ
  higherVote : Option Vote

end Proto

/-! ### Votes and ids -/

/-- `proto_to_committed_leader_id`, which has the body of `proto_to_leader_id`. -/
def protoToCommittedLeaderId : Option Proto.LeaderId → LeaderId
  | some l => ⟨l.term, (l.nodeId.map Proto.NodeId.id).getD 0⟩
  | none => ⟨0, 0⟩

def leaderIdToProto (lid : LeaderId) : Proto.LeaderId := ⟨lid.term, some ⟨lid.nodeId⟩⟩

def protoToLogId (lid : Option Proto.LogId) : Option LogId :=
  lid.map fun l ↦ ⟨protoToCommittedLeaderId l.leaderId, l.index⟩

def logIdToProto (lid : LogId) : Proto.LogId :=
  ⟨some ⟨lid.leaderId.term, some ⟨lid.leaderId.nodeId⟩⟩, lid.index⟩

def logIdOptionToProto (lid : Option LogId) : Option Proto.LogId := lid.map logIdToProto

def protoToVote : Option Proto.Vote → Vote
  | some v =>
    let term := (v.leaderId.map Proto.LeaderId.term).getD 0
    let nodeId := (v.leaderId.bind fun l ↦ l.nodeId.map Proto.NodeId.id).getD 0
    if v.committed then ⟨⟨term, nodeId⟩, true⟩ else ⟨⟨term, nodeId⟩, false⟩
  | none => ⟨⟨0, 0⟩, false⟩

def voteToProto (vote : Vote) : Proto.Vote := ⟨some (leaderIdToProto vote.leaderId), vote.committed⟩

@[simp] theorem protoToLogId_some (lid : LogId) :
    protoToLogId (some (logIdToProto lid)) = some lid := rfl

@[simp] theorem protoToLogId_map (lid : Option LogId) :
    protoToLogId (lid.map logIdToProto) = lid := by
  cases lid <;> rfl

@[simp] theorem protoToVote_some (vote : Vote) : protoToVote (some (voteToProto vote)) = vote := by
  obtain ⟨leaderId, committed⟩ := vote
  cases committed <;> rfl

/-! ### Entries -/

/-- `tonic::Status` with the code `InvalidArgument`. -/
structure Status where
  message : String
deriving DecidableEq, Repr

/-- The formats that the conversions rest on. -/
structure Wire where
  /-- `bincode::serialize`. -/
  serialize : Binlog → Except String Bytes
  /-- `bincode::deserialize`. -/
  deserialize : Bytes → Except String Binlog
  display : Status → String
  /-- Binlogs are read back as they were written. -/
  lossless : ∀ binlog, ∃ data, serialize binlog = .ok data ∧ deserialize data = .ok binlog

/-- There is such a format: binlogs can be numbered, and so can byte strings. -/
theorem nonempty_wire : Nonempty Wire := by
  have hbyte : Countable UInt8 :=
    (show Function.Injective UInt8.toNat from fun _ _ h ↦ UInt8.toNat_inj.1 h).countable
  have hop : Countable OperateType := by
    refine (show Function.Injective (fun o : OperateType ↦ o.ctorIdx) from ?_).countable
    intro a b h
    cases a <;> cases b <;> first | rfl | cases h
  have hentry : Countable BinlogEntry := by
    refine (show Function.Injective
      (fun e : BinlogEntry ↦ (e.cfIdx, e.opType, e.key, e.value)) from ?_).countable
    rintro ⟨_, _, _, _⟩ ⟨_, _, _, _⟩ h
    simp only [Prod.mk.injEq] at h
    simp only [h]
  have hbinlog : Countable Binlog := by
    refine (show Function.Injective
      (fun b : Binlog ↦ (b.dbId, b.slotIdx, b.entries)) from ?_).countable
    rintro ⟨_, _, _⟩ ⟨_, _, _⟩ h
    simp only [Prod.mk.injEq] at h
    simp only [h]
  obtain ⟨f, hf⟩ := exists_injective_nat Binlog
  let g : ℕ ↪ Bytes := Infinite.natEmbedding Bytes
  have hinj : Function.Injective (g ∘ f) := g.injective.comp hf
  exact ⟨{
    serialize b := .ok (g (f b))
    deserialize data := .ok (Function.extend (g ∘ f) id (fun _ ↦ ⟨0, 0, []⟩) data)
    display _ := ""
    lossless b := ⟨g (f b), rfl, congrArg Except.ok (hinj.extend_apply id _ b)⟩ }⟩

variable (wire : Wire)

/-- The payload of `Entry` as `proto::entry_payload::Payload`. -/
def payloadToProto : Payload Membership → Except String Proto.Payload
  | .blank => .ok .blank
  | .normal binlog => (wire.serialize binlog).map .normal
  | .membership membership =>
    let allNodeIds := voterIds membership.configs
    let nodes := membership.nodes.rows.map fun r ↦
      (⟨r.1, r.2.raftAddr, r.2.respAddr⟩ : Proto.NodeConfig)
    .ok (.membership (allNodeIds.sort (· ≤ ·)) nodes)

/-- `Entry` as `proto::Entry`. -/
def entryToProto (entry : Entry (Payload Membership)) : Except String Proto.Entry :=
  (payloadToProto wire entry.payload).map fun payload ↦
    ⟨some (logIdToProto entry.logId), some ⟨some payload⟩⟩

/-- `proto::entry_payload::Payload` as the payload of `Entry`. -/
def protoToPayload : Proto.Payload → Except Status (Payload Membership)
  | .blank => .ok .blank
  | .normal data =>
    match wire.deserialize data with
    | .ok binlog => .ok (.normal binlog)
    | .error e => .error ⟨s!"failed to deserialize binlog: {e}"⟩
  | .membership nodeIds nodes =>
    -- one configuration, whatever the sender had
    .ok (.membership (.new [nodeIds.toFinset] (SortedMap.empty.insertAll (nodes.map fun n ↦
      (n.nodeId, ⟨n.raftAddr, n.respAddr⟩)))))

/-- `proto::Entry` as `Entry`. -/
def protoToEntry (entry : Proto.Entry) : Except Status (Entry (Payload Membership)) :=
  match protoToLogId entry.logId with
  | none => .error ⟨"missing log_id in entry"⟩
  | some logId =>
    match entry.payload.bind Proto.EntryPayload.payload with
    | none => .error ⟨"empty payload"⟩
    | some payload => (protoToPayload wire payload).map fun payload ↦ ⟨logId, payload⟩

/-! ### Messages -/

/-- The loop over the entries of a request: the entries that were converted, and the errors of the
others. -/
def entriesToProto (idx : ℕ) : List (Entry (Payload Membership)) → List Proto.Entry × List String
  | [] => ([], [])
  | entry :: rest =>
    let (entries, errors) := entriesToProto (idx + 1) rest
    match entryToProto wire entry with
    | .ok e => (e :: entries, errors)
    | .error e => (entries, s!"entry[{idx}]: {e}" :: errors)

/-- `AppendEntriesRequest` as `proto::AppendEntriesRequest`. -/
def AppendEntriesRequest.toProto (req : AppendEntriesRequest) :
    Except Status Proto.AppendEntriesRequest :=
  let (entries, errors) := entriesToProto wire 0 req.entries
  if errors = [] then
    .ok ⟨some (voteToProto req.vote), logIdOptionToProto req.prevLogId, entries,
      logIdOptionToProto req.leaderCommit⟩
  else
    .error ⟨s!"failed to convert {errors.length} entries: " ++ "; ".intercalate errors⟩

/-- `proto::AppendEntriesRequest` as `AppendEntriesRequest`: the first error ends the
conversion. -/
def AppendEntriesRequest.ofProto (req : Proto.AppendEntriesRequest) :
    Except Status AppendEntriesRequest :=
  match req.entries.mapM (protoToEntry wire) with
  | .error e => .error ⟨s!"invalid entry: " ++ wire.display e⟩
  | .ok entries => .ok ⟨protoToVote req.vote, protoToLogId req.prevLogId, entries,
      protoToLogId req.leaderCommit⟩

/-- `VoteRequest` as `proto::VoteRequest`. -/
def VoteRequest.toProto (req : VoteRequest) : Proto.VoteRequest :=
  ⟨some (voteToProto req.vote), req.lastLogId.map logIdToProto⟩

/-- `proto::VoteRequest` as `VoteRequest`. -/
def VoteRequest.ofProto (req : Proto.VoteRequest) : VoteRequest :=
  ⟨protoToVote req.vote, protoToLogId req.lastLogId⟩

/-- `VoteResponse` as `proto::VoteResponse`. -/
def VoteResponse.toProto (resp : VoteResponse) : Proto.VoteResponse :=
  ⟨some (voteToProto resp.vote), resp.voteGranted, resp.lastLogId.map logIdToProto⟩

/-- `proto::VoteResponse` as `VoteResponse`. -/
def VoteResponse.ofProto (resp : Proto.VoteResponse) : VoteResponse :=
  ⟨protoToVote resp.vote, resp.voteGranted, protoToLogId resp.lastLogId⟩

/-- `AppendEntriesResponse` as `proto::AppendEntriesResponse`: a partial success is a success. -/
def AppendEntriesResponse.toProto : AppendEntriesResponse → Proto.AppendEntriesResponse
  | success | partialSuccess _ => ⟨true, Proto.AppendEntriesResult.success.toI32, none⟩
  | conflict => ⟨false, Proto.AppendEntriesResult.conflict.toI32, none⟩
  | higherVote vote =>
    ⟨false, Proto.AppendEntriesResult.higherVote.toI32, some (voteToProto vote)⟩

/-- `proto::AppendEntriesResponse` as `AppendEntriesResponse`. -/
def AppendEntriesResponse.ofProto (resp : Proto.AppendEntriesResponse) :
    Except Status AppendEntriesResponse :=
  match (Proto.AppendEntriesResult.tryFrom resp.result).getD .unspecified with
  | .success => .ok success
  | .conflict => .ok conflict
  | .higherVote =>
    match resp.higherVote with
    | none => .error ⟨"missing higher_vote"⟩
    | some vote => .ok (higherVote (protoToVote (some vote)))
  | .unspecified =>
    if resp.success then .ok success
    else
      match resp.higherVote with
      | some vote => .ok (higherVote (protoToVote (some vote)))
      | none => .ok conflict

/-- The messages. -/
inductive Message
  | voteRequest (req : VoteRequest)
  | voteResponse (resp : VoteResponse)
  | appendEntriesRequest (req : AppendEntriesRequest)
  | appendEntriesResponse (resp : AppendEntriesResponse)

/-- A message is converted, and what arrives is converted back. -/
def Message.send : Message → Except Status Message
  | voteRequest req => .ok (.voteRequest (.ofProto req.toProto))
  | voteResponse resp => .ok (.voteResponse (.ofProto resp.toProto))
  | appendEntriesRequest req =>
    match req.toProto wire with
    | .error e => .error e
    | .ok proto => (AppendEntriesRequest.ofProto wire proto).map .appendEntriesRequest
  | appendEntriesResponse resp =>
    (AppendEntriesResponse.ofProto resp.toProto).map .appendEntriesResponse

end Kiwi.Raft
