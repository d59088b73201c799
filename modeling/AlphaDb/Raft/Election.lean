import AlphaDb.Lib.Trace
import AlphaDb.Raft.Votes

/-! Elections in a cluster whose messages may be lost, delayed, duplicated and reordered. -/
namespace AlphaDb.Raft

open Trace

/-- `n` servers, each with the others as its peers, and the messages sent so far: vote requests
with their sender, and votes with candidate and voter. Nothing is ever taken out, so a message may
arrive late, often, or never. -/
structure Cluster (n : ℕ) where
  server : Fin n → RaftServer (n - 1)
  requests : List (Fin n × RequestVoteArgs)
  replies : List (Fin n × Fin n × RequestVoteReply)

inductive ClusterStep (n : ℕ)
  | timeout (i : Fin n)
  | resend (i : Fin n)
  | requestVote (j i : Fin n) (args : RequestVoteArgs)
  | receiveReply (i j : Fin n) (reply : RequestVoteReply)
  | replicate (i : Fin n)
  | appendEntries (i : Fin n) (args : AppendEntriesArgs) (reply : AppendEntriesReply)
  | receiveAppendReply (i : Fin n) (peer : Fin (n - 1)) (reply : AppendEntriesReply)

namespace Cluster

variable {n : ℕ} {c d : Cluster n} {i j v : Fin n} {id : Fin n → ℤ} {r : RequestVoteReply}

def setServer (c : Cluster n) (i : Fin n) (s : RaftServer (n - 1)) : Cluster n :=
  { c with server := Function.update c.server i s }

@[simp] theorem setServer_self (c : Cluster n) (i : Fin n) (s : RaftServer (n - 1)) :
    (c.setServer i s).server i = s :=
  Function.update_self ..

theorem setServer_of_ne {s : RaftServer (n - 1)} (h : j ≠ i) :
    (c.setServer i s).server j = c.server j :=
  Function.update_of_ne h ..

theorem setServer_setServer (c : Cluster n) (i : Fin n) (s t : RaftServer (n - 1)) :
    (c.setServer i s).setServer i t = c.setServer i t := by
  simp [setServer]

theorem forall_setServer (P : Fin n → RaftServer (n - 1) → Prop) {s : RaftServer (n - 1)}
    (hi : P i s) (h : ∀ j, j ≠ i → P j (c.server j)) : ∀ j, P j ((c.setServer i s).server j) :=
  (Function.forall_update_iff c.server P).mpr ⟨hi, h⟩

/-- `send_request_vote_args` of a server. -/
def sendRequestVoteArgs (c : Cluster n) (i : Fin n) : Option (Cluster n) :=
  (c.server i).requestVoteArgs.map fun args => { c with requests := (i, args) :: c.requests }

/-- One timeout or one handler. A reply object starts with the term of the request, which is
what a granted vote is meant to carry. The calls on the log come in any order, with any
arguments. -/
def step (c : Cluster n) : ClusterStep n → Option (Cluster n)
  | .timeout i => (c.setServer i ((c.server i).convertTo .candidate (-1))).sendRequestVoteArgs i
  | .resend i => c.sendRequestVoteArgs i
  | .requestVote j i args =>
    if (i, args) ∈ c.requests ∧ j ≠ i then
      ((c.server j).requestVote args ⟨args.term, false⟩).map fun x =>
        { c.setServer j x.1 with replies := (i, j, x.2) :: c.replies }
    else none
  | .receiveReply i j reply =>
    if (i, j, reply) ∈ c.replies then
      some (c.setServer i ((c.server i).receiveRequestVoteReply reply))
    else none
  | .replicate i => (c.server i).replicate.map (c.setServer i)
  | .appendEntries i args reply =>
    ((c.server i).appendEntries args reply).map fun x => c.setServer i x.1
  | .receiveAppendReply i peer reply =>
    ((c.server i).receiveAppendEntriesReply peer reply).map fun x => c.setServer i x.1

/-- Terms stay in the range of the `int` that `convert_to` takes. -/
def TermsFit (c : Cluster n) : ClusterStep n → Prop
  | .timeout i => (c.server i).currentTerm + 1 < 2 ^ 31
  | .receiveAppendReply _ _ reply => reply.term < 2 ^ 31
  | _ => True

instance : ∀ (c : Cluster n) (a : ClusterStep n), Decidable (c.TermsFit a)
  | _, .timeout _ => inferInstanceAs (Decidable (_ < _))
  | _, .receiveAppendReply .. => inferInstanceAs (Decidable (_ < _))
  | _, .resend _ | _, .requestVote .. | _, .receiveReply .. | _, .replicate _
  | _, .appendEntries .. => inferInstanceAs (Decidable True)

/-- Followers with any logs, terms and votes, and no message on its way. -/
structure Starts (id : Fin n → ℤ) (c : Cluster n) : Prop where
  ids : ∀ i, (c.server i).id = id i
  followers : ∀ i, (c.server i).role = .follower
  terms : ∀ i, (c.server i).currentTerm < 2 ^ 31
  votes : ∀ i, -2 ^ 31 ≤ (c.server i).votedFor ∧ (c.server i).votedFor < 2 ^ 31
  silent : c.requests = [] ∧ c.replies = []

/-- No two leaders of one term. -/
def ElectionSafe (c : Cluster n) : Prop :=
  ∀ i j, (c.server i).role = .leader → (c.server j).role = .leader →
    (c.server i).currentTerm = (c.server j).currentTerm → i = j

/-- The voter `v` gave its vote of a term to `i`. -/
def Voted (c : Cluster n) (i v : Fin n) (term : ℕ) : Prop :=
  ∃ r, (i, v, r) ∈ c.replies ∧ r.voteGranted = true ∧ r.term = term

/-- One vote for a term, kept as long as the term lasts. -/
structure Electoral (id : Fin n → ℤ) (c : Cluster n) : Prop where
  ids : ∀ i, (c.server i).id = id i
  terms : ∀ i, (c.server i).currentTerm < 2 ^ 31
  ints : ∀ i, -2 ^ 31 ≤ (c.server i).votedFor ∧ (c.server i).votedFor < 2 ^ 31
  requests : ∀ i args, (i, args) ∈ c.requests →
    args.candidateId = (id i % 2 ^ 32).toNat ∧ args.term ≤ (c.server i).currentTerm
  replies : ∀ i v r, (i, v, r) ∈ c.replies → r.term ≤ (c.server i).currentTerm
  granted : ∀ i v term, c.Voted i v term → v ≠ i ∧ term ≤ (c.server v).currentTerm ∧
    ((c.server v).currentTerm = term → (c.server v).votedFor = id i)
  unique : ∀ i j v term, c.Voted i v term → c.Voted j v term → i = j
  self : ∀ i, (c.server i).role ≠ .follower → (c.server i).votedFor = id i
  leader : ∀ i, (c.server i).role = .leader → ∃ v, c.Voted i v (c.server i).currentTerm

theorem electoral_of_starts (h : Starts id c) : Electoral id c := by
  obtain ⟨hreq, hrep⟩ := h.silent
  refine ⟨h.ids, h.terms, h.votes, ?_, ?_, ?_, ?_, ?_, ?_⟩
  · simp [hreq]
  · simp [hrep]
  · simp [Voted, hrep]
  · simp [Voted, hrep]
  · exact fun i hi => absurd (h.followers i) hi
  · exact fun i hi => absurd (h.followers i) (by simp [hi])

/-- One server moves on without a message: its term does not fall, and it changes its vote in a
term only if it had none. -/
theorem Electoral.setServer (h : Electoral id c) (hid : ∀ i, 0 ≤ id i) {s : RaftServer (n - 1)}
    (hids : s.id = id i) (hle : (c.server i).currentTerm ≤ s.currentTerm)
    (hlt : s.currentTerm < 2 ^ 31) (hint : -2 ^ 31 ≤ s.votedFor ∧ s.votedFor < 2 ^ 31)
    (hvote : s.currentTerm = (c.server i).currentTerm → (c.server i).votedFor ≠ -1 →
      s.votedFor = (c.server i).votedFor)
    (hself : s.role ≠ .follower → s.votedFor = id i)
    (hleader : s.role = .leader → ∃ v, c.Voted i v s.currentTerm) :
    Electoral id (c.setServer i s) := by
  have hterm : ∀ j, (c.server j).currentTerm ≤ ((c.setServer i s).server j).currentTerm :=
    forall_setServer (fun j t => (c.server j).currentTerm ≤ t.currentTerm) hle fun _ _ => le_rfl
  refine ⟨?_, ?_, ?_, ?_, ?_, ?_, h.unique, ?_, ?_⟩
  · exact forall_setServer (fun j t => t.id = id j) hids fun j _ => h.ids j
  · exact forall_setServer (fun _ t => t.currentTerm < 2 ^ 31) hlt fun j _ => h.terms j
  · exact forall_setServer (fun _ t => -2 ^ 31 ≤ t.votedFor ∧ t.votedFor < 2 ^ 31) hint
      fun j _ => h.ints j
  · intro j args hj
    obtain ⟨hcand, hle'⟩ := h.requests j args hj
    exact ⟨hcand, hle'.trans (hterm j)⟩
  · intro j v r hr
    exact (h.replies j v r hr).trans (hterm j)
  · intro j v term hv
    obtain ⟨hne, hle', hvoted⟩ := h.granted j v term hv
    refine ⟨hne, hle'.trans (hterm v), ?_⟩
    by_cases hj : v = i
    · subst hj
      rw [setServer_self]
      intro hnew
      have hcur : (c.server v).currentTerm = term := by omega
      have hold := hvoted hcur
      have := hid j
      rw [hvote (hnew.trans hcur.symm) (by omega), hold]
    · rw [setServer_of_ne hj]
      exact hvoted
  · exact forall_setServer (fun j t => t.role ≠ .follower → t.votedFor = id j) hself
      fun j _ => h.self j
  · exact forall_setServer (fun j t => t.role = .leader → ∃ v, c.Voted j v t.currentTerm) hleader
      fun j _ => h.leader j

theorem Electoral.sameVote (h : Electoral id c) (hid : ∀ i, 0 ≤ id i) {s : RaftServer (n - 1)}
    (hs : SameVote (c.server i) s) : Electoral id (c.setServer i s) := by
  obtain ⟨hids, hrole, hterm, hvoted⟩ := hs
  refine h.setServer hid (hids.trans (h.ids i)) hterm.ge (hterm ▸ h.terms i) (hvoted ▸ h.ints i)
    (fun _ _ => hvoted) ?_ ?_
  · intro hr
    rw [hvoted]
    exact h.self i (hrole ▸ hr)
  · intro hr
    rw [hterm]
    exact h.leader i (hrole ▸ hr)

/-- A server that has seen a term becomes its follower, if the term is later than its own. -/
theorem Electoral.observe (h : Electoral id c) (hid : ∀ i, 0 ≤ id i) {s : RaftServer (n - 1)}
    {term : ℕ} (hterm : term < 2 ^ 31) (hs : SameVote ((c.server i).observe term) s) :
    Electoral id (c.setServer i s) := by
  obtain ⟨hlt, ho⟩ | ⟨-, ho⟩ := observe_cases (s := c.server i) hterm
  · rw [ho] at hs
    obtain ⟨hids, hrole, hcur, hvoted⟩ := hs
    refine h.setServer hid (hids.trans (h.ids i)) ?_ ?_ ?_ ?_ ?_ ?_
    · rw [hcur]
      exact hlt.le
    · rw [hcur]
      exact hterm
    · rw [hvoted]
      norm_num
    · intro he
      rw [hcur] at he
      exact absurd he hlt.ne'
    · exact fun hr => absurd hrole hr
    · intro hr
      rw [hrole] at hr
      simp at hr
  · rw [ho] at hs
    exact h.sameVote hid hs

theorem electoral_sendRequestVoteArgs (h : Electoral id c)
    (hs : c.sendRequestVoteArgs i = some d) : Electoral id d := by
  obtain ⟨args, hargs, rfl⟩ := Option.map_eq_some_iff.mp hs
  obtain ⟨e, -, rfl⟩ := Option.map_eq_some_iff.mp hargs
  refine ⟨h.ids, h.terms, h.ints, ?_, h.replies, h.granted, h.unique, h.self, h.leader⟩
  intro j args hj
  rcases List.mem_cons.mp hj with heq | hj
  · obtain ⟨rfl, rfl⟩ := Prod.mk.inj heq
    exact ⟨by rw [h.ids], le_rfl⟩
  · exact h.requests j args hj

theorem electoral_timeout (h : Electoral id c) (hid : ∀ i, 0 ≤ id i ∧ id i < 2 ^ 31)
    (hlt : (c.server i).currentTerm + 1 < 2 ^ 31) :
    Electoral id (c.setServer i ((c.server i).convertTo .candidate (-1))) := by
  have hterm : ((c.server i).currentTerm + 1) % 2 ^ 64 = (c.server i).currentTerm + 1 :=
    Nat.mod_eq_of_lt (by omega)
  refine h.setServer (fun i => (hid i).1) (h.ids i) ?_ ?_ ?_ ?_ ?_ ?_
  · simp only [RaftServer.convertTo, hterm]
    omega
  · simp only [RaftServer.convertTo, hterm]
    exact hlt
  · simp only [RaftServer.convertTo, h.ids]
    have := hid i
    omega
  · intro he
    simp only [RaftServer.convertTo, hterm] at he
    omega
  · intro _
    exact h.ids i
  · intro hr
    simp [RaftServer.convertTo] at hr

/-- A new reply. If it grants a vote, the voter is in that term, has this vote, and gave none of
that term to somebody else. -/
theorem Electoral.addReply (h : Electoral id c) (hle : r.term ≤ (c.server i).currentTerm)
    (hgrant : r.voteGranted = true → v ≠ i ∧ (c.server v).currentTerm = r.term ∧
      (c.server v).votedFor = id i ∧ ∀ j, c.Voted j v r.term → j = i) :
    Electoral id { c with replies := (i, v, r) :: c.replies } := by
  have hvoted : ∀ {j w term}, Voted { c with replies := (i, v, r) :: c.replies } j w term →
      c.Voted j w term ∨ (j = i ∧ w = v ∧ r.voteGranted = true ∧ r.term = term) := by
    rintro j w term ⟨r', hr', hg, ht⟩
    rcases List.mem_cons.mp hr' with heq | hr'
    · simp only [Prod.mk.injEq] at heq
      obtain ⟨rfl, rfl, rfl⟩ := heq
      exact Or.inr ⟨rfl, rfl, hg, ht⟩
    · exact Or.inl ⟨r', hr', hg, ht⟩
  refine ⟨h.ids, h.terms, h.ints, h.requests, ?_, ?_, ?_, h.self, ?_⟩
  · intro j w r' hr'
    rcases List.mem_cons.mp hr' with heq | hr'
    · simp only [Prod.mk.injEq] at heq
      obtain ⟨rfl, rfl, rfl⟩ := heq
      exact hle
    · exact h.replies j w r' hr'
  · intro j w term hw
    rcases hvoted hw with hw | ⟨rfl, rfl, hg, rfl⟩
    · exact h.granted j w term hw
    · obtain ⟨hne, hterm, hfor, -⟩ := hgrant hg
      exact ⟨hne, hterm.ge, fun _ => hfor⟩
  · intro j k w term hj hk
    rcases hvoted hj with hj' | ⟨rfl, rfl, hg, rfl⟩
    · rcases hvoted hk with hk' | ⟨rfl, rfl, hg, rfl⟩
      · exact h.unique j k w term hj' hk'
      · exact (hgrant hg).2.2.2 j hj'
    · rcases hvoted hk with hk' | ⟨rfl, -, -, -⟩
      · exact ((hgrant hg).2.2.2 k hk').symm
      · rfl
  · intro j hj
    obtain ⟨w, r', hr', hg, ht⟩ := h.leader j hj
    exact ⟨w, r', List.mem_cons_of_mem _ hr', hg, ht⟩

theorem electoral_requestVote {args : RequestVoteArgs} {s : RaftServer (n - 1)}
    (h : Electoral id c) (hid : ∀ i, 0 ≤ id i ∧ id i < 2 ^ 31) (hinj : Function.Injective id)
    (hreq : (i, args) ∈ c.requests) (hne : j ≠ i)
    (hv : (c.server j).requestVote args ⟨args.term, false⟩ = some (s, r)) :
    Electoral id { c.setServer j s with replies := (i, j, r) :: c.replies } := by
  have hpos : ∀ i, 0 ≤ id i := fun i => (hid i).1
  obtain ⟨hcand, hle⟩ := h.requests i args hreq
  have hterm : args.term < 2 ^ 31 := lt_of_le_of_lt hle (h.terms i)
  have hi : (c.setServer j s).server i = c.server i := setServer_of_ne hne.symm
  have hj : (c.setServer j s).server j = s := setServer_self ..
  have hvoteOf : toInt args.candidateId = id i := by
    have := hid i
    rw [hcand, toInt_of_lt (by omega)]
    omega
  obtain ⟨rfl, hs⟩ | ⟨rfl, hcur, o, ho, rfl, hfree⟩ := requestVote_cases hv
  · have hset : Electoral id (c.setServer j s) := by
      rcases hs with rfl | rfl
      · exact h.sameVote hpos ⟨rfl, rfl, rfl, rfl⟩
      · exact h.observe hpos hterm ⟨rfl, rfl, rfl, rfl⟩
    refine hset.addReply ?_ fun hg => absurd hg (by simp)
    rw [hi]
    exact hle
  · have hcases := observe_cases (s := c.server j) hterm
    rw [← ho] at hcases
    -- the voter had no vote in this term, or has given it to the same candidate
    have hsame : (c.server j).currentTerm = args.term → (c.server j).votedFor ≠ -1 →
        (c.server j).votedFor = id i := by
      intro he hvoted
      obtain ⟨hlt, -⟩ | ⟨-, rfl⟩ := hcases
      · omega
      · have hfree := hfree.resolve_left hvoted
        rw [hcand] at hfree
        have := hid i
        have := h.ints j
        omega
    have hnew : o.currentTerm = args.term ∧ o.id = id j ∧ o.role = .follower := by
      obtain ⟨-, rfl⟩ | ⟨hge, rfl⟩ := hcases
      · exact ⟨rfl, h.ids j, rfl⟩
      · refine ⟨by omega, h.ids j, ?_⟩
        by_contra hr
        have hself := h.self j hr
        have := hid j
        have hij := hsame (by omega) (by omega)
        rw [hself] at hij
        exact hne (hinj hij)
    obtain ⟨hnewterm, hnewid, hfollower⟩ := hnew
    have hset : Electoral id (c.setServer j { o with votedFor := toInt args.candidateId }) := by
      refine h.setServer hpos hnewid (by rw [hnewterm]; exact hcur) (by rw [hnewterm]; exact hterm)
        ?_ ?_ (fun hr => absurd hfollower hr) ?_
      · dsimp only
        rw [hvoteOf]
        have := hid i
        omega
      · intro he hvoted
        dsimp only
        rw [hvoteOf, hsame (by rw [← he, hnewterm]) hvoted]
      · intro hr
        simp [hfollower] at hr
    refine hset.addReply (by rw [hi]; exact hle) fun _ => ⟨hne, ?_, ?_, ?_⟩
    · rw [hj]
      exact hnewterm
    · simp only [hj]
      exact hvoteOf
    · intro k hk
      obtain ⟨-, hkle, hkvote⟩ := h.granted k j args.term hk
      have he : (c.server j).currentTerm = args.term := by omega
      have hk := hkvote he
      have := hid k
      rw [hsame he (by omega)] at hk
      exact (hinj hk).symm

theorem electoral_receiveReply (h : Electoral id c) (hid : ∀ i, 0 ≤ id i)
    (hr : (i, v, r) ∈ c.replies) :
    Electoral id (c.setServer i ((c.server i).receiveRequestVoteReply r)) := by
  have hle := h.replies i v r hr
  have ho : (c.server i).observe r.term = c.server i := RaftServer.observe_of_le hle
  unfold RaftServer.receiveRequestVoteReply
  split
  · exact h.sameVote hid ⟨rfl, rfl, rfl, rfl⟩
  · next hrole =>
    rw [ho]
    dsimp only
    split
    · next hcount =>
      split
      · refine h.setServer hid (h.ids i) le_rfl (h.terms i) (h.ints i) (fun _ _ => rfl) ?_ ?_
        · intro _
          exact h.self i (by simp [not_not.mp hrole])
        · intro _
          exact ⟨v, r, hr, hcount.2, hcount.1⟩
      · exact h.sameVote hid ⟨rfl, rfl, rfl, rfl⟩
    · exact h.sameVote hid ⟨rfl, rfl, rfl, rfl⟩

theorem electoral_step (hid : ∀ i, 0 ≤ id i ∧ id i < 2 ^ 31) (hinj : Function.Injective id) :
    TrInv (Guarded TermsFit step) (Electoral id) := by
  have hpos : ∀ i, 0 ≤ id i := fun i => (hid i).1
  rintro c a d ⟨hfit, hs⟩ h
  cases a with
  | timeout i => exact electoral_sendRequestVoteArgs (electoral_timeout h hid hfit) hs
  | resend i => exact electoral_sendRequestVoteArgs h hs
  | requestVote j i args =>
    simp only [step] at hs
    split at hs
    · next hc =>
      obtain ⟨⟨s, r⟩, hv, rfl⟩ := Option.map_eq_some_iff.mp hs
      exact electoral_requestVote h hid hinj hc.1 hc.2 hv
    · simp at hs
  | receiveReply i v r =>
    simp only [step] at hs
    split at hs
    · next hr =>
      obtain rfl := Option.some.inj hs
      exact electoral_receiveReply h hpos hr
    · simp at hs
  | replicate i =>
    obtain ⟨s, hv, rfl⟩ := Option.map_eq_some_iff.mp hs
    exact h.sameVote hpos (replicate_sameVote hv)
  | appendEntries i args reply =>
    obtain ⟨⟨s, r⟩, hv, rfl⟩ := Option.map_eq_some_iff.mp hs
    exact h.sameVote hpos (appendEntries_sameVote hv)
  | receiveAppendReply i peer reply =>
    obtain ⟨⟨s, sent⟩, hv, rfl⟩ := Option.map_eq_some_iff.mp hs
    rcases receiveAppendEntriesReply_sameVote hv with hsame | hsame
    · exact h.sameVote hpos hsame
    · exact h.observe hpos hfit hsame

/-- With three servers, two leaders of a term share their only voter. -/
theorem Electoral.safe (h : Electoral id c) (hinj : Function.Injective id) (hn : n ≤ 3) :
    ElectionSafe c := by
  intro i j hi hj hterm
  by_contra hne
  obtain ⟨v, hv⟩ := h.leader i hi
  obtain ⟨w, hw⟩ := h.leader j hj
  obtain ⟨hvi, -, hvvote⟩ := h.granted i v _ hv
  obtain ⟨hwj, -, hwvote⟩ := h.granted j w _ hw
  have hvj : v ≠ j := by
    rintro rfl
    have := hvvote hterm.symm
    rw [h.self v (by simp [hj])] at this
    exact hne (hinj this).symm
  have hwi : w ≠ i := by
    rintro rfl
    have := hwvote hterm
    rw [h.self w (by simp [hi])] at this
    exact hne (hinj this)
  have hvw : v = w := by
    apply Fin.ext
    have := Fin.val_ne_of_ne hne
    have := Fin.val_ne_of_ne hvi
    have := Fin.val_ne_of_ne hvj
    have := Fin.val_ne_of_ne hwi
    have := Fin.val_ne_of_ne hwj
    omega
  subst hvw
  rw [hterm] at hv
  exact hne (h.unique i j v _ hv hw)

/-- A single vote, delivered over and over, is counted until it makes a leader. -/
theorem repeated_vote_elects (hr : (i, v, r) ∈ c.replies) (hg : r.voteGranted = true)
    (hrole : (c.server i).role = .candidate) (hterm : r.term = (c.server i).currentTerm) :
    ∃ steps s, MTr (Guarded TermsFit step) c steps (c.setServer i s) ∧
      s.role = .leader ∧ s.currentTerm = r.term := by
  obtain ⟨k, hk⟩ : ∃ k : ℕ, (c.server i).majority ≤ (c.server i).votes + k :=
    ⟨((c.server i).majority - (c.server i).votes).toNat, by omega⟩
  -- induction on the votes that are still missing
  induction k generalizing c with
  | zero =>
    obtain ⟨hcur, hwon, -⟩ := receiveRequestVoteReply_granted hrole hterm hg
    refine ⟨[.receiveReply i v r], _, .single ⟨trivial, if_pos hr⟩, hwon ?_, hcur.trans hterm.symm⟩
    push_cast at hk
    omega
  | succ k ih =>
    obtain ⟨hcur, hwon, hlost⟩ := receiveRequestVoteReply_granted hrole hterm hg
    by_cases hmajority : (c.server i).majority ≤ (c.server i).votes + 1
    · exact ⟨[.receiveReply i v r], _, .single ⟨trivial, if_pos hr⟩, hwon hmajority,
        hcur.trans hterm.symm⟩
    · obtain ⟨hrole', hvotes⟩ := hlost hmajority
      obtain ⟨steps, s, hrun, hs⟩ := ih (c := c.setServer i _) hr
        (by rw [setServer_self]; exact hrole') (by rw [setServer_self, hcur]; exact hterm) (by
          rw [setServer_self, hvotes, RaftServer.majority_eq _ (c.server i)]
          push_cast at hk
          omega)
      rw [setServer_setServer] at hrun
      exact ⟨.receiveReply i v r :: steps, s, .stepL ⟨trivial, if_pos hr⟩ hrun, hs⟩

end Cluster

/-- A new server, with the entry 0 that every log starts with. -/
def RaftServer.fresh {peers : ℕ} (id : ℤ) : RaftServer peers := .restored id 0 [⟨0, 0⟩]

namespace Cluster

variable {n : ℕ} {c d : Cluster n} {i j v : Fin n} {id : Fin n → ℤ} {r : RequestVoteReply}

def fresh (id : Fin n → ℤ) : Cluster n where
  server i := .fresh (id i)
  requests := []
  replies := []

theorem fresh_starts (id : Fin n → ℤ) : Starts id (fresh id) where
  ids _ := rfl
  followers _ := rfl
  terms _ := by simp [fresh, RaftServer.fresh, RaftServer.restored]
  votes _ := by simp [fresh, RaftServer.fresh, RaftServer.restored]
  silent := ⟨rfl, rfl⟩

/-- A fresh server becomes leader of term 1 with the vote of one other. -/
theorem fresh_elects (hi : c.server i = .fresh (id i)) (hv : c.server v = .fresh (id v))
    (hne : v ≠ i) :
    ∃ steps d, MTr (Guarded TermsFit step) c steps d ∧ (d.server i).role = .leader ∧
      (d.server i).currentTerm = 1 ∧ ∀ j, j ≠ i → j ≠ v → d.server j = c.server j := by
  let args : RequestVoteArgs := ⟨1, (id i % 2 ^ 32).toNat, 0, 0⟩
  let c₁ : Cluster n := { c.setServer i ((c.server i).convertTo .candidate (-1)) with
    requests := (i, args) :: c.requests }
  have htimeout : Guarded TermsFit step c (.timeout i) c₁ := by
    constructor
    · simp [TermsFit, hi, RaftServer.fresh, RaftServer.restored]
    · simp [step, sendRequestVoteArgs, RaftServer.requestVoteArgs, RaftServer.convertTo, hi,
        RaftServer.fresh, RaftServer.restored, c₁, args, setServer]
  have hc₁v : c₁.server v = .fresh (id v) := (setServer_of_ne hne).trans hv
  obtain ⟨s, hgranted⟩ : ∃ s, (c₁.server v).requestVote args ⟨args.term, false⟩ =
      some (s, ⟨1, true⟩) := by
    rw [hc₁v]
    exact ⟨_, requestVote_of_lt Nat.one_pos (by norm_num [args]) rfl⟩
  let c₂ : Cluster n := { c₁.setServer v s with replies := (i, v, ⟨1, true⟩) :: c.replies }
  have hvote : Guarded TermsFit step c₁ (.requestVote v i args) c₂ := by
    refine ⟨trivial, ?_⟩
    simp only [step]
    rw [if_pos ⟨List.mem_cons_self, hne⟩, hgranted]
    rfl
  have hc₂i : c₂.server i = (c.server i).convertTo .candidate (-1) :=
    (setServer_of_ne hne.symm).trans (setServer_self ..)
  obtain ⟨steps, t, hrun, hleader, hterm⟩ := repeated_vote_elects (c := c₂) (i := i) (v := v)
    (r := ⟨1, true⟩) List.mem_cons_self rfl (by rw [hc₂i]; rfl) (by rw [hc₂i, hi]; rfl)
  refine ⟨_, _, .stepL htimeout (.stepL hvote hrun), ?_, ?_, ?_⟩
  · rw [setServer_self]
    exact hleader
  · rw [setServer_self]
    exact hterm
  · intro j hji hjv
    calc ((c₂.setServer i t).server j) = c₂.server j := setServer_of_ne hji
      _ = c₁.server j := setServer_of_ne hjv
      _ = c.server j := setServer_of_ne hji

/-- From four servers on, two candidates find a voter each. -/
theorem fresh_unsafe (hn : 4 ≤ n) (id : Fin n → ℤ) :
    ∃ steps d, MTr (Guarded TermsFit step) (fresh id) steps d ∧ ¬ElectionSafe d := by
  let i : Fin n := ⟨0, by omega⟩
  let j : Fin n := ⟨1, by omega⟩
  let v : Fin n := ⟨2, by omega⟩
  let w : Fin n := ⟨3, by omega⟩
  have hfresh : ∀ k, (fresh id).server k = .fresh (id k) := fun _ => rfl
  obtain ⟨xs, c, hrun, hi, hiterm, hframe⟩ := fresh_elects (hfresh i) (hfresh v) (by simp [i, v])
  have hj : c.server j = .fresh (id j) := hframe j (by simp [i, j]) (by simp [j, v])
  have hw : c.server w = .fresh (id w) := hframe w (by simp [i, w]) (by simp [v, w])
  obtain ⟨ys, d, hrun', hj', hjterm, hframe'⟩ := fresh_elects hj hw (by simp [j, w])
  have hsame : d.server i = c.server i := hframe' i (by simp [i, j]) (by simp [i, w])
  refine ⟨_, d, hrun.append hrun', ?_⟩
  intro hsafe
  have hij : i = j := hsafe i j (by rw [hsame, hi]) hj' (by rw [hsame, hiterm, hjterm])
  simp [i, j] at hij

/-- Elections are safe in clusters of at most three servers, and in no others. -/
theorem electionSafe_iff (hid : ∀ i, 0 ≤ id i ∧ id i < 2 ^ 31) (hinj : Function.Injective id) :
    (∀ c steps d, Starts id c → MTr (Guarded TermsFit step) c steps d → ElectionSafe d) ↔
      n ≤ 3 := by
  constructor
  · intro hsafe
    by_contra hn
    obtain ⟨steps, d, hrun, hd⟩ := fresh_unsafe (not_le.mp hn) id
    exact hd (hsafe _ steps d (fresh_starts id) hrun)
  · intro hn c steps d hc hrun
    have h := mTr_trInv (electoral_step hid hinj) hrun (electoral_of_starts hc)
    exact h.safe hinj hn

/-- Server 0 of three is elected; server 2 stands in the same term and is not. -/
theorem electionSafe_iff_three :
    ∃ d, MTr (Guarded TermsFit step) (fresh fun i : Fin 3 => (i : ℤ))
        [.timeout 0, .timeout 2, .requestVote 1 0 ⟨1, 0, 0, 0⟩, .requestVote 1 2 ⟨1, 2, 0, 0⟩,
          .receiveReply 2 1 ⟨1, false⟩, .receiveReply 0 1 ⟨1, true⟩,
          .receiveReply 0 1 ⟨1, true⟩] d ∧
      (d.server 0).role = .leader ∧ (d.server 2).role = .candidate ∧ ElectionSafe d := by
  have h : (execGuarded TermsFit step (fresh fun i : Fin 3 => (i : ℤ))
      [.timeout 0, .timeout 2, .requestVote 1 0 ⟨1, 0, 0, 0⟩, .requestVote 1 2 ⟨1, 2, 0, 0⟩,
        .receiveReply 2 1 ⟨1, false⟩, .receiveReply 0 1 ⟨1, true⟩,
        .receiveReply 0 1 ⟨1, true⟩]).any
      (fun d => (d.server 0).role = .leader ∧ (d.server 2).role = .candidate) = true := by
    decide +kernel
  obtain ⟨d, hrun, hd⟩ := exists_mTr_of_execGuarded h
  obtain ⟨h0, h2⟩ := of_decide_eq_true hd
  refine ⟨d, hrun, h0, h2, ?_⟩
  have hid : ∀ i : Fin 3, 0 ≤ (i : ℤ) ∧ (i : ℤ) < 2 ^ 31 := fun i => by omega
  have hinj : Function.Injective fun i : Fin 3 => (i : ℤ) := fun i j h => by
    simpa [Fin.ext_iff] using h
  exact (electionSafe_iff hid hinj).mpr le_rfl _ _ d (fresh_starts _) hrun

/-- Two leaders of term 1 among four servers, each with its own vote and one other. -/
theorem four_servers_two_leaders :
    ∃ d, MTr (fun c a d => step c a = some d) (fresh fun i : Fin 4 => (i : ℤ))
        [.timeout 0, .timeout 1, .requestVote 2 0 ⟨1, 0, 0, 0⟩, .requestVote 3 1 ⟨1, 1, 0, 0⟩,
          .receiveReply 0 2 ⟨1, true⟩, .receiveReply 1 3 ⟨1, true⟩] d ∧ ¬ElectionSafe d := by
  have h : (exec step (fresh fun i : Fin 4 => (i : ℤ))
      [.timeout 0, .timeout 1, .requestVote 2 0 ⟨1, 0, 0, 0⟩, .requestVote 3 1 ⟨1, 1, 0, 0⟩,
        .receiveReply 0 2 ⟨1, true⟩, .receiveReply 1 3 ⟨1, true⟩]).any
      (fun d => (d.server 0).role = .leader ∧ (d.server 1).role = .leader ∧
        (d.server 0).currentTerm = (d.server 1).currentTerm) = true := by
    decide +kernel
  obtain ⟨d, hrun, hd⟩ := exists_mTr_of_exec h
  obtain ⟨h0, h1, hterm⟩ := of_decide_eq_true hd
  exact ⟨d, hrun, fun hsafe => absurd (hsafe 0 1 h0 h1 hterm) (by decide)⟩

end Cluster

end AlphaDb.Raft
