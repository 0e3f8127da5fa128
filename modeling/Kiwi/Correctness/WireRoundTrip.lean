import Kiwi.Raft.Conversion

/-!
# Round trips of Raft messages

`send_eq_self_iff` says which messages arrive as they were sent: all votes, and of the others those
that carry neither a membership with several configurations, or with none, nor a partial success.
The protobuf type of a membership has one list of voters, so a joint membership arrives as the
single configuration of all its voters (`joint_membership_collapses`): a node that receives it
counts one majority where two are needed.
-/

namespace Kiwi.Raft

variable (wire : Wire)

/-! ### Memberships -/

/-- What a membership is read back as. -/
def Membership.flatten (membership : Membership) : Membership where
  configs := [voterIds membership.configs]
  nodes := membership.nodes
  voter_mem config hconfig id hid := by
    rw [List.mem_singleton.1 hconfig] at hid
    obtain ⟨config', hconfig', hid⟩ := mem_voterIds.1 hid
    exact membership.voter_mem config' hconfig' id hid

theorem Membership.flatten_eq_self_iff (membership : Membership) :
    membership.flatten = membership ↔ membership.configs.length = 1 := by
  constructor
  · intro h
    rw [← congrArg Membership.configs h]
    rfl
  · intro h
    obtain ⟨config, hconfig⟩ := List.length_eq_one_iff.1 h
    have hvoters : voterIds membership.configs = config := by
      rw [hconfig, voterIds, List.foldr_cons, List.foldr_nil, Finset.union_empty]
    exact Membership.ext ((congrArg (fun c ↦ [c]) hvoters).trans hconfig.symm) rfl

variable {nodes : SortedMap ℕ KiwiNode}

theorem insertAll_nodeConfigs :
    (SortedMap.empty.insertAll ((nodes.rows.map fun r ↦
      (⟨r.1, r.2.raftAddr, r.2.respAddr⟩ : Proto.NodeConfig)).map fun n ↦
        (n.nodeId, (⟨n.raftAddr, n.respAddr⟩ : KiwiNode)))) = nodes := by
  rw [List.map_map]
  exact (congrArg SortedMap.empty.insertAll (List.map_id _)).trans nodes.insertAll_rows

/-- Nodes for all voters are not extended. -/
theorem Membership.nodes_new {configs : List (Finset ℕ)}
    (h : ∀ config ∈ configs, ∀ id ∈ config, (nodes.get id).isSome) :
    (Membership.new configs nodes).nodes = nodes := by
  refine SortedMap.ext_get fun id ↦ ?_
  rw [new, SortedMap.get_insertAll, nodes.insertAll_rows]
  rcases hget : nodes.get id with _ | node
  · -- what is added is added for a voter
    rw [Option.none_or, ← Option.not_isSome_iff_eq_none, ← SortedMap.mem_keySet,
      SortedMap.keySet_insertAll, SortedMap.keySet_empty, Finset.empty_union, List.mem_toFinset,
      List.map_map]
    rintro hid
    obtain ⟨id', hid', rfl⟩ := List.mem_map.1 hid
    obtain ⟨config, hconfig, hvoter⟩ := mem_voterIds.1 ((Finset.mem_sort _).1 hid')
    have hsome := h config hconfig id' hvoter
    rw [show nodes.get id' = none from hget] at hsome
    cases hsome
  · rfl

/-! ### Entries -/

/-- What a payload is read back as. -/
def Payload.flatten : Payload Membership → Payload Membership
  | .membership m => .membership m.flatten
  | payload => payload

variable (payload : Payload Membership)

/-- **A payload goes and comes back** with its memberships flattened. -/
theorem protoToPayload_payloadToProto :
    ∃ proto, payloadToProto wire payload = .ok proto ∧
      protoToPayload wire proto = .ok payload.flatten := by
  cases payload with
  | blank => exact ⟨_, rfl, rfl⟩
  | normal binlog =>
    obtain ⟨data, hdata, hbinlog⟩ := wire.lossless binlog
    refine ⟨.normal data, ?_, ?_⟩
    · rw [payloadToProto, hdata]
      rfl
    · rw [protoToPayload, hbinlog]
      rfl
  | membership membership =>
    refine ⟨_, rfl, ?_⟩
    rw [protoToPayload, insertAll_nodeConfigs, Finset.sort_toFinset]
    refine congrArg (fun m ↦ Except.ok (Payload.membership m)) (Membership.ext rfl ?_)
    exact Membership.nodes_new membership.flatten.voter_mem

/-- What an entry is read back as. -/
def Entry.flatten (entry : Entry (Payload Membership)) : Entry (Payload Membership) :=
  ⟨entry.logId, entry.payload.flatten⟩

variable (entry : Entry (Payload Membership))

theorem protoToEntry_entryToProto :
    ∃ proto, entryToProto wire entry = .ok proto ∧
      protoToEntry wire proto = .ok entry.flatten := by
  obtain ⟨proto, hto, hof⟩ := protoToPayload_payloadToProto wire entry.payload
  refine ⟨⟨some (logIdToProto entry.logId), some ⟨some proto⟩⟩, ?_, ?_⟩
  · rw [entryToProto, hto]
    rfl
  · rw [protoToEntry, protoToLogId_some]
    dsimp only [Option.bind_some]
    rw [hof]
    rfl

theorem mapM_entriesToProto (idx : ℕ) (entries : List (Entry (Payload Membership))) :
    (entriesToProto wire idx entries).2 = [] ∧
      (entriesToProto wire idx entries).1.mapM (protoToEntry wire) =
        .ok (entries.map Entry.flatten) := by
  induction entries generalizing idx with
  | nil => exact ⟨rfl, rfl⟩
  | cons entry entries ih =>
    obtain ⟨proto, hto, hof⟩ := protoToEntry_entryToProto wire entry
    obtain ⟨herrors, hentries⟩ := ih (idx + 1)
    rw [entriesToProto, hto]
    refine ⟨herrors, ?_⟩
    dsimp only
    rw [List.mapM_cons, hof, hentries]
    rfl

/-! ### Messages -/

/-- What a message is read back as. -/
def Message.received : Message → Message
  | appendEntriesRequest req =>
    .appendEntriesRequest { req with entries := req.entries.map Entry.flatten }
  | appendEntriesResponse (.partialSuccess _) => .appendEntriesResponse .success
  | message => message

/-- **Every message is received**, perhaps as another. -/
theorem send_eq_received (message : Message) : message.send wire = .ok message.received := by
  cases message with
  | voteRequest =>
    rw [Message.send, VoteRequest.toProto, VoteRequest.ofProto, protoToVote_some, protoToLogId_map]
    rfl
  | voteResponse =>
    rw [Message.send, VoteResponse.toProto, VoteResponse.ofProto, protoToVote_some,
      protoToLogId_map]
    rfl
  | appendEntriesRequest req =>
    obtain ⟨herrors, hentries⟩ := mapM_entriesToProto wire 0 req.entries
    have hto : req.toProto wire = .ok ⟨some (voteToProto req.vote),
        logIdOptionToProto req.prevLogId, (entriesToProto wire 0 req.entries).1,
        logIdOptionToProto req.leaderCommit⟩ := by
      rw [AppendEntriesRequest.toProto]
      exact if_pos herrors
    rw [Message.send, hto]
    dsimp only
    rw [AppendEntriesRequest.ofProto, hentries, protoToVote_some, logIdOptionToProto,
      logIdOptionToProto, protoToLogId_map, protoToLogId_map]
    rfl
  | appendEntriesResponse resp =>
    cases resp with
    | success | partialSuccess | conflict => rfl
    | higherVote =>
      rw [Message.send, AppendEntriesResponse.toProto, AppendEntriesResponse.ofProto,
        Proto.AppendEntriesResult.tryFrom_toI32]
      dsimp only [Option.getD_some]
      rw [protoToVote_some]
      rfl

/-- A payload other than a membership with several configurations, or with none. -/
def Payload.Plain : Payload Membership → Prop
  | .membership m => m.configs.length = 1
  | _ => True

/-- What the protobuf messages have room for. -/
def Message.Plain : Message → Prop
  | appendEntriesRequest req => ∀ entry ∈ req.entries, entry.payload.Plain
  | appendEntriesResponse (.partialSuccess _) => False
  | _ => True

theorem Payload.flatten_eq_self_iff : payload.flatten = payload ↔ payload.Plain := by
  cases payload with
  | blank | normal => exact iff_of_true rfl trivial
  | membership membership =>
    rw [flatten, Payload.membership.injEq]
    exact membership.flatten_eq_self_iff

theorem Entry.flatten_eq_self_iff : entry.flatten = entry ↔ entry.payload.Plain := by
  rw [← Payload.flatten_eq_self_iff]
  exact ⟨fun h ↦ congrArg Entry.payload h, fun h ↦ congrArg (Entry.mk entry.logId) h⟩

/-- **Round trips.** A message is read back as it was sent exactly when every membership in it has
one configuration and it is not a partial success. -/
theorem send_eq_self_iff (message : Message) :
    message.send wire = .ok message ↔ message.Plain := by
  rw [send_eq_received, Except.ok.injEq]
  cases message with
  | voteRequest | voteResponse => exact iff_of_true rfl trivial
  | appendEntriesRequest req =>
    rw [Message.received, Message.appendEntriesRequest.injEq]
    constructor
    · intro h entry hentry
      have hmap := congrArg AppendEntriesRequest.entries h
      exact entry.flatten_eq_self_iff.1
        (List.map_inj_left.1 (hmap.trans (List.map_id _).symm) entry hentry)
    · intro h
      have hmap : req.entries.map Entry.flatten = req.entries.map id :=
        List.map_inj_left.2 fun entry hentry ↦ entry.flatten_eq_self_iff.2 (h entry hentry)
      rw [List.map_id] at hmap
      rw [hmap]
  | appendEntriesResponse resp =>
    cases resp with
    | partialSuccess =>
      refine iff_of_false (fun h ↦ ?_) id
      cases Message.appendEntriesResponse.inj h
    | _ => exact iff_of_true rfl trivial

/-- A request with one membership entry. -/
def membershipRequest (configs : List (Finset ℕ)) : Message :=
  .appendEntriesRequest ⟨⟨⟨2, 1⟩, true⟩, none, [⟨⟨⟨2, 1⟩, 7⟩, .membership (.new configs .empty)⟩],
    none⟩

/-- The voters change from 1, 2, 3 to 1, 4, 5: what arrives has five voters in one configuration,
and what was a partial success up to some entry is a success. -/
theorem joint_membership_collapses :
    Nonempty Wire ∧ ∀ wire,
      (membershipRequest [{1, 2, 3}, {1, 4, 5}]).send wire =
          .ok (membershipRequest [{1, 2, 3, 4, 5}]) ∧
        (Message.appendEntriesResponse (.partialSuccess (some ⟨⟨2, 1⟩, 6⟩))).send wire =
          .ok (.appendEntriesResponse .success) := by
  refine ⟨nonempty_wire, fun wire ↦ ⟨?_, rfl⟩⟩
  have hvoters : voterIds [{1, 2, 3}, {1, 4, 5}] = voterIds [{1, 2, 3, 4, 5}] := by decide
  have hmembership : (Membership.new [{1, 2, 3}, {1, 4, 5}] .empty).flatten =
      .new [{1, 2, 3, 4, 5}] .empty := by
    refine Membership.ext ?_ ?_
    · exact congrArg (fun c ↦ [c]) (by decide)
    · exact congrArg (fun ids : Finset ℕ ↦ (SortedMap.empty.insertAll
        ((ids.sort (· ≤ ·)).map fun id ↦ (id, ({} : KiwiNode)))).insertAll .nil) hvoters
  rw [send_eq_received]
  exact congrArg (fun m ↦ Except.ok (Message.appendEntriesRequest
    ⟨⟨⟨2, 1⟩, true⟩, none, [⟨⟨⟨2, 1⟩, 7⟩, .membership m⟩], none⟩)) hmembership

end Kiwi.Raft
