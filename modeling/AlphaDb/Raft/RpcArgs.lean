import AlphaDb.Network.Buffer
import AlphaDb.Network.Coding

/-! The messages of the servers on a connection (`consensus/raft/rpc_args` and `log`). -/
namespace AlphaDb.Raft.Rpc

open Network

structure Log where
  index : UInt64
  term : UInt64
  deriving DecidableEq

structure RequestVoteArgs where
  term : UInt64
  candidateId : UInt32
  lastLogIndex : UInt64
  lastLogTerm : UInt64
  deriving DecidableEq

structure RequestVoteReply where
  term : UInt64
  voteGranted : UInt8
  deriving DecidableEq

structure AppendEntriesArgs where
  term : UInt64
  leaderId : UInt8
  prevLogIndex : UInt64
  prevLogTerm : UInt64
  leaderCommit : UInt64
  logEntries : List Log
  deriving DecidableEq

structure AppendEntriesReply where
  term : UInt64
  success : UInt8
  deriving DecidableEq

/-- A local array before anything is stored in it: what the stack happens to hold. -/
def uninitialised (stack : ℕ → UInt8) (size : ℕ) : List UInt8 := (List.range size).map stack

/-- The calls `bytes += encode_uint(buf, val)`, each of which starts at `buf` again: the array
and `bytes`. -/
def encodeFields (buf : List UInt8) (vals : List ℕ) : List UInt8 × ℕ :=
  vals.foldl (fun x val => (encodeUint val ++ x.1.drop (encodeUint val).length,
    x.2 + (encodeUint val).length)) (buf, 0)

/-- A length, which `put` takes for a single character, and the array. -/
def putFields (x : List UInt8 × ℕ) (b : Buffer) : Option Buffer :=
  (b.put (UInt8.ofNat x.2)).bind fun b => b.putBytes x.1 x.2

/-- The last field is the index once more, and not the term. -/
def writeRequestVoteArgs (stack : ℕ → UInt8) (args : RequestVoteArgs) : Buffer → Option Buffer :=
  putFields (encodeFields (uninitialised stack 40)
    [args.term.toNat, args.candidateId.toNat, args.lastLogIndex.toNat, args.lastLogIndex.toNat])

/-- The two replies are a term and a flag. -/
def writeReply (stack : ℕ → UInt8) (term : UInt64) (flag : UInt8) : Buffer → Option Buffer :=
  putFields (encodeFields (uninitialised stack 20) [term.toNat, flag.toNat])

def writeRequestVoteReply (stack : ℕ → UInt8) (args : RequestVoteReply) :
    Buffer → Option Buffer :=
  writeReply stack args.term args.voteGranted

def writeAppendEntriesReply (stack : ℕ → UInt8) (args : AppendEntriesReply) :
    Buffer → Option Buffer :=
  writeReply stack args.term args.success

/-- Two arrays, the second one for the log; the number of entries is cut to 16 bits. -/
def writeAppendEntriesArgs (stack : ℕ → UInt8) (args : AppendEntriesArgs) (b : Buffer) :
    Option Buffer :=
  let x := encodeFields (uninitialised stack 50)
    [args.term.toNat, args.leaderId.toNat, args.prevLogIndex.toNat, args.prevLogTerm.toNat,
      args.leaderCommit.toNat]
  let size := args.logEntries.length % 2 ^ 16
  let y := encodeFields (uninitialised (fun i => stack (50 + i)) 1024)
    ((args.logEntries.take size).flatMap fun e => [e.index.toNat, e.term.toNat])
  (b.put (UInt8.ofNat (x.2 + y.2))).bind fun b =>
    (b.put (UInt8.ofNat size)).bind fun b =>
      (b.putBytes x.1 x.2).bind fun b => b.putBytes y.1 y.2

/-- Two characters for the length here. -/
def writeLog (stack : ℕ → UInt8) (args : Log) (b : Buffer) : Option Buffer :=
  let x := encodeFields (uninitialised stack 20) [args.index.toNat, args.term.toNat]
  (b.put (UInt8.ofNat x.2)).bind fun b =>
    (b.put (UInt8.ofNat (x.2 / 2 ^ 8))).bind fun b => b.putBytes x.1 x.2

/-- The end of every reader: the bytes of the last field are compared with a length. -/
def rewind (b : Buffer) (bytes : ℕ) (len : ℤ) : Buffer :=
  if (bytes : ℤ) ≠ len then b.unget (bytes + 2) else b

/-- Every field is decoded at the same place; the length that was read is not used. -/
def readRequestVoteArgs (b : Buffer) : Option (RequestVoteArgs × Buffer) := do
  let (_, b) ← b.getBytes [0, 0] 2
  let (term, _) ← decodeUvarint b.getBegin
  let (candidateId, _) ← decodeUvarint b.getBegin
  let (lastLogIndex, _) ← decodeUvarint b.getBegin
  let (lastLogTerm, bytes) ← decodeUvarint b.getBegin
  some (⟨.ofNat term, .ofNat candidateId, .ofNat lastLogIndex, .ofNat lastLogTerm⟩,
    rewind b bytes 0)

def readReply {α : Type} (mk : UInt64 → UInt8 → α) (b : Buffer) : Option (α × Buffer) := do
  let (_, b) ← b.getBytes [0, 0] 2
  let (term, _) ← decodeUvarint b.getBegin
  let (flag, bytes) ← decodeUvarint b.getBegin
  some (mk (.ofNat term) (.ofNat flag), rewind b bytes 0)

def readRequestVoteReply : Buffer → Option (RequestVoteReply × Buffer) :=
  readReply RequestVoteReply.mk

def readAppendEntriesReply : Buffer → Option (AppendEntriesReply × Buffer) :=
  readReply AppendEntriesReply.mk

/-- The log entries stay as they are in `args`. -/
def readAppendEntriesArgs (args : AppendEntriesArgs) (b : Buffer) :
    Option (AppendEntriesArgs × Buffer) := do
  let (_, b) ← b.getBytes [0, 0] 2
  let (term, _) ← decodeUvarint b.getBegin
  let (leaderId, _) ← decodeUvarint b.getBegin
  let (prevLogIndex, _) ← decodeUvarint b.getBegin
  let (prevLogTerm, _) ← decodeUvarint b.getBegin
  let (leaderCommit, bytes) ← decodeUvarint b.getBegin
  let (_, b) ← b.getBytes [0, 0] 2
  some (⟨.ofNat term, .ofNat leaderId, .ofNat prevLogIndex, .ofNat prevLogTerm,
    .ofNat leaderCommit, args.logEntries⟩, rewind b bytes 0)

/-- One character is read for the length, and compared as a signed one. -/
def readLog (b : Buffer) : Option (Log × Buffer) := do
  let (len, b) ← b.get
  let (index, _) ← decodeUvarint b.getBegin
  let (term, bytes) ← decodeUvarint b.getBegin
  some (⟨.ofNat index, .ofNat term⟩, rewind b bytes len.toInt8.toInt)

inductive Message
  | requestVoteArgs (args : RequestVoteArgs)
  | requestVoteReply (args : RequestVoteReply)
  | appendEntriesArgs (args : AppendEntriesArgs)
  | appendEntriesReply (args : AppendEntriesReply)
  | log (args : Log)
  deriving DecidableEq

/-- `operator<<` of the message's type. -/
def Message.write (stack : ℕ → UInt8) : Message → Buffer → Option Buffer
  | .requestVoteArgs args => writeRequestVoteArgs stack args
  | .requestVoteReply args => writeRequestVoteReply stack args
  | .appendEntriesArgs args => writeAppendEntriesArgs stack args
  | .appendEntriesReply args => writeAppendEntriesReply stack args
  | .log args => writeLog stack args

/-- `operator>>` into an object of the same type as the given one. -/
def Message.read (b : Buffer) : Message → Option (Message × Buffer)
  | .requestVoteArgs _ => (readRequestVoteArgs b).map fun x => (.requestVoteArgs x.1, x.2)
  | .requestVoteReply _ => (readRequestVoteReply b).map fun x => (.requestVoteReply x.1, x.2)
  | .appendEntriesArgs args =>
    (readAppendEntriesArgs args b).map fun x => (.appendEntriesArgs x.1, x.2)
  | .appendEntriesReply _ =>
    (readAppendEntriesReply b).map fun x => (.appendEntriesReply x.1, x.2)
  | .log _ => (readLog b).map fun x => (.log x.1, x.2)

end AlphaDb.Raft.Rpc
