import CryoNero.Core.RingChecker

/-!
# Checking signatures in parallel is checking them one by one

Of the signatures that were queued for the current block each is in exactly one place: its result is
counted, a thread is checking it, it waits in the queue, or `cancel_work` has dropped it. This is
`Accounts`, and every step of every thread keeps it. When as many results are counted as there are
signatures, all of them are; then no error means that all are valid.

What it means that the signatures of a block are valid is said without the ring checker
(`StartCall.AllValid`): the primitive accepts each key input with the outputs that it names.

A signature of an earlier block is in none of these places. When the next block is started, or the
work is cancelled, `workCounter` passes the value that every busy thread remembers, so what these
threads hold is no longer `running` and its result is thrown away.
-/

namespace CryoNero

open Store

/-! ## What is to be found out -/

/-- The keys of a ring are those of the outputs that the input names, in their order. -/
def RingKeys (view : StateView) (input : KeyInput) (keys : List PublicKey) : Prop :=
  (globalIndexes input.outputIndexes).map (fun globalIndex ↦
    (view.readAmountOutput input.amount globalIndex).map (·.publicKey)) = keys.map some

/-- Every ring signature of every key input of a block is valid. -/
def StartCall.AllValid (env : Env) (call : StartCall) : Prop :=
  ∀ transaction ∈ call.block.transactions, ∀ (input : KeyInput) (index : ℕ),
    (.keyInput input, index) ∈ transaction.inputs.zipIdx →
      ∃ keys, RingKeys call.view input keys ∧
        env.crypto.checkRingSignature
          (getTransactionPrefixHash env.crypto transaction.toTransactionPrefix) input.keyImage keys
          (transaction.signatures.getD index []) = .valid

private theorem ringKeys_of_readRing {env : Env} {view : StateView} {unlockHeight : Height}
    {unlockTimestamp : Timestamp} {input : KeyInput} {conflict : Height} {ring : List PublicKey × Height}
    (h : readRing env view unlockHeight unlockTimestamp input.amount
      (globalIndexes input.outputIndexes) conflict = .ok ring) : RingKeys view input ring.1 := by
  refine foldlM_ok (fun done acc ↦ done.map (fun globalIndex ↦
    (view.readAmountOutput input.amount globalIndex).map (·.publicKey)) = acc.1.map some) h rfl ?_
  intro done globalIndex rest acc acc' _ hdone hread
  cases hunp : view.readAmountOutput input.amount globalIndex with
  | none =>
    rw [hunp] at hread
    cases hread
  | some unp =>
    rw [hunp] at hread
    dsimp only at hread
    split_ifs at hread
    obtain rfl := Except.ok.inj hread
    rw [List.map_append, hdone, List.map_append, List.map_singleton, hunp]
    rfl

theorem RingKeys.unique {view : StateView} {input : KeyInput} {keys keys' : List PublicKey}
    (h : RingKeys view input keys) (h' : RingKeys view input keys') : keys = keys' :=
  List.map_injective_iff.mpr (Option.some_injective _) (h.symm.trans h')

/-- What is collected for an input says all that the primitive is to be asked: nothing for a coinbase
input, and for a key input the keys of the outputs that it names. -/
theorem ringSignatureArg_eq_ok {env : Env} {view : StateView} {unlockHeight : Height}
    {unlockTimestamp : Timestamp} {transaction : Transaction} {input : TransactionInput × ℕ}
    {found : Option RingSignatureArg}
    (h : ringSignatureArg env view unlockHeight unlockTimestamp transaction input = .ok found) :
    (∀ i, input.1 = .coinbaseInput i → found = none) ∧
    ∀ i, input.1 = .keyInput i → ∃ keys, RingKeys view i keys ∧
      found = some { txPrefixHash := getTransactionPrefixHash env.crypto transaction.toTransactionPrefix,
                     keyImage := i.keyImage, outputKeys := keys,
                     signatures := transaction.signatures.getD input.2 [] } := by
  obtain ⟨_ | i, index⟩ := input
  · exact ⟨fun _ _ ↦ (Except.ok.inj h).symm, fun _ hkey ↦ by cases hkey⟩
  · refine ⟨fun _ hcoinbase ↦ (by cases hcoinbase), fun i' hkey ↦ ?_⟩
    cases hkey
    rw [ringSignatureArg] at h
    dsimp only at h
    split at h
    · cases h
    · split_ifs at h
      obtain ⟨ring, hring, hfound⟩ := bind_eq_ok.mp h
      exact ⟨ring.1, ringKeys_of_readRing hring, (Except.ok.inj hfound).symm⟩

/-! ## What is collected for a block -/

/-- The inputs `done` were read without an error and `jobs` is what is to be checked for them. -/
def Collected (env : Env) (call : StartCall) (done : List InputOfTransaction)
    (jobs : List RingSignatureArg) : Prop :=
  ∃ found, done.mapM (call.arg env) = .ok found ∧ jobs = found.filterMap id

theorem Collected.nil (env : Env) (call : StartCall) : Collected env call [] [] :=
  ⟨[], rfl, rfl⟩

theorem Collected.append {env : Env} {call : StartCall} {done : List InputOfTransaction}
    {jobs : List RingSignatureArg} {input : InputOfTransaction} {found : Option RingSignatureArg}
    (h : Collected env call done jobs) (hinput : call.arg env input = .ok found) :
    Collected env call (done ++ [input]) (jobs ++ found.toList) := by
  obtain ⟨l, hl, rfl⟩ := h
  refine ⟨l ++ [found], ?_, ?_⟩
  · rw [List.mapM_append, hl, List.mapM_cons, hinput, List.mapM_nil]
    rfl
  · rw [List.filterMap_append]
    cases found <;> rfl

private theorem Collected.exists_arg {env : Env} {call : StartCall} {jobs : List RingSignatureArg}
    (h : Collected env call call.inputs jobs) {transaction : Transaction}
    (htransaction : transaction ∈ call.block.transactions) {input : TransactionInput × ℕ}
    (hinput : input ∈ transaction.inputs.zipIdx) :
    ∃ found, ringSignatureArg env call.view call.unlockHeight call.unlockTimestamp transaction input
      = .ok found := by
  obtain ⟨found, hfound, -⟩ := h
  have hmem : (transaction, input) ∈ call.inputs :=
    List.mem_flatMap.mpr ⟨transaction, htransaction, List.mem_map.mpr ⟨input, hinput, rfl⟩⟩
  obtain ⟨i, hget⟩ := List.mem_iff_get.mp hmem
  have hread := mapM_eq_ok hfound
  have hresult := hread.get i.2 (hread.length_eq ▸ i.2)
  rw [hget] at hresult
  exact ⟨_, hresult⟩

/-- What is collected for a block is what is to be checked for its inputs. -/
theorem Collected.mem {env : Env} {call : StartCall} {jobs : List RingSignatureArg}
    (h : Collected env call call.inputs jobs) {arg : RingSignatureArg} :
    arg ∈ jobs ↔ ∃ transaction ∈ call.block.transactions, ∃ input ∈ transaction.inputs.zipIdx,
      ringSignatureArg env call.view call.unlockHeight call.unlockTimestamp transaction input
        = .ok (some arg) := by
  obtain ⟨found, hfound, rfl⟩ := h
  simp only [List.mem_filterMap, id, exists_eq_right, mem_of_mapM_eq_ok hfound, StartCall.inputs,
    List.mem_flatMap, List.mem_map]
  constructor
  · rintro ⟨_, ⟨transaction, htransaction, input, hinput, rfl⟩, harg⟩
    exact ⟨transaction, htransaction, input, hinput, harg⟩
  · rintro ⟨transaction, htransaction, input, hinput, harg⟩
    exact ⟨_, ⟨transaction, htransaction, input, hinput, rfl⟩, harg⟩

/-- The signatures that are collected for a block are valid exactly when all of its key inputs have
valid signatures. -/
private theorem Collected.allValid_iff {env : Env} {call : StartCall} {jobs : List RingSignatureArg}
    (h : Collected env call call.inputs jobs) :
    (∀ arg ∈ jobs, env.crypto.checkRingSignature arg.txPrefixHash arg.keyImage arg.outputKeys
      arg.signatures = .valid) ↔ call.AllValid env := by
  constructor
  · intro hall transaction htransaction input index hinput
    obtain ⟨found, hfound⟩ := h.exists_arg htransaction hinput
    obtain ⟨keys, hkeys, rfl⟩ := (ringSignatureArg_eq_ok hfound).2 input rfl
    exact ⟨keys, hkeys, hall _ (h.mem.mpr ⟨transaction, htransaction, _, hinput, hfound⟩)⟩
  · intro hall arg harg
    obtain ⟨transaction, htransaction, ⟨_ | input, index⟩, hinput, hfound⟩ := h.mem.mp harg
    · cases (ringSignatureArg_eq_ok hfound).1 _ rfl
    · obtain ⟨keys, hkeys, hsome⟩ := (ringSignatureArg_eq_ok hfound).2 input rfl
      obtain rfl := Option.some.inj hsome
      obtain ⟨keys', hkeys', hvalid⟩ := hall transaction htransaction input index hinput
      rwa [hkeys.unique hkeys']

private theorem mapM_flatMap {ε α β γ : Type} (f : α → List β) (g : β → Except ε γ) (l : List α) :
    (l.flatMap f).mapM g = (l.mapM fun x ↦ (f x).mapM g).map List.flatten := by
  induction l with
  | nil => rfl
  | cons x l ih =>
    rw [List.flatMap_cons, List.mapM_append, ih, List.mapM_cons]
    rcases (f x).mapM g with e | ys
    · rfl
    · rcases l.mapM fun x ↦ (f x).mapM g with e | yss <;> rfl

/-- A block whose inputs were all read is one that `startWorkGetError` accepts. -/
theorem Collected.startWorkGetError {env : Env} {call : StartCall} {jobs : List RingSignatureArg}
    (h : Collected env call call.inputs jobs) :
    startWorkGetError env call.view call.block call.unlockHeight call.unlockTimestamp
      = .ok jobs := by
  obtain ⟨found, hfound, rfl⟩ := h
  have hinputs : call.inputs.mapM (call.arg env) = (call.block.transactions.mapM fun transaction : Transaction ↦
      transaction.inputs.zipIdx.mapM (ringSignatureArg env call.view call.unlockHeight
        call.unlockTimestamp transaction)).map List.flatten := by
    rw [StartCall.inputs, mapM_flatMap]
    simp only [List.mapM_map]
    rfl
  rw [hinputs] at hfound
  rw [CryoNero.startWorkGetError]
  rcases hall : call.block.transactions.mapM fun transaction : Transaction ↦
      transaction.inputs.zipIdx.mapM (ringSignatureArg env call.view call.unlockHeight
        call.unlockTimestamp transaction) with e | founds
  · rw [hall] at hfound
    cases hfound
  · rw [hall] at hfound
    obtain rfl := Except.ok.inj hfound
    rfl

namespace RingCheckerMulticore

variable {env : Env}

/-- Every signature that was queued is in one place. -/
def Accounts (s : RingCheckerMulticore) (jobs : List RingSignatureArg) : Prop :=
  (s.counted + s.running + s.args + s.dropped : Multiset RingSignatureArg) = jobs

/-- What holds of the current block, by the place where the main thread is. -/
def Progress (env : Env) (s : RingCheckerMulticore) : Prop :=
  match s.main with
  | .outside => True
  | .cleared _ => s.Accounts []
  | .filling call rest => ∃ done jobs, call.inputs = done ++ rest ∧ Collected env call done jobs ∧
      s.Accounts jobs ∧ s.totalCounter = jobs.length
  | .pushing call arg rest => ∃ done jobs, call.inputs = done ++ rest ∧
      Collected env call done (jobs ++ [arg]) ∧ s.Accounts jobs ∧
      s.totalCounter = jobs.length + 1
  | .started call => ∃ jobs, Collected env call call.inputs jobs ∧ s.Accounts jobs ∧
      s.totalCounter = jobs.length

structure Sound (env : Env) (s : RingCheckerMulticore) : Prop where
  /-- No thread is ahead of the main thread. -/
  held_le : ∀ job ∈ heldJobs s.threads, job.1 ≤ s.workCounter
  ready : s.readyCounter = s.counted.length
  errors : s.errors = s.counted.flatMap fun arg ↦ errorOf (check env arg)
  progress : Progress env s

/-! ## The workers -/

/-- What of the held jobs counts as running. -/
def current (workCounter : ℕ) (jobs : List (ℕ × RingSignatureArg)) : List RingSignatureArg :=
  (jobs.filter fun job ↦ job.1 == workCounter).map (·.2)

theorem running_eq (s : RingCheckerMulticore) :
    s.running = current s.workCounter (heldJobs s.threads) := rfl

private theorem current_perm {n : ℕ} {l l' : List (ℕ × RingSignatureArg)} (h : l.Perm l') :
    (current n l).Perm (current n l') := (h.filter _).map _

private theorem current_cons_self (n : ℕ) (arg : RingSignatureArg) (l : List (ℕ × RingSignatureArg)) :
    current n ((n, arg) :: l) = arg :: current n l := by
  simp [current]

private theorem current_cons_of_ne {n k : ℕ} (h : k ≠ n) (arg : RingSignatureArg)
    (l : List (ℕ × RingSignatureArg)) : current n ((k, arg) :: l) = current n l := by
  simp [current, h]

private theorem current_eq_nil {n : ℕ} {l : List (ℕ × RingSignatureArg)} (h : ∀ job ∈ l, job.1 < n) :
    current n l = [] := by
  rw [current, List.map_eq_nil_iff, List.filter_eq_nil_iff]
  intro job hjob
  have := h job hjob
  simp only [beq_iff_eq]
  omega

/-- Only the workers have acted, and the accounts of the current block add up as before. -/
structure Worked (s s' : RingCheckerMulticore) : Prop where
  main : s'.main = s.main
  totalCounter : s'.totalCounter = s.totalCounter
  accounts : ∀ jobs, s.Accounts jobs → s'.Accounts jobs

theorem Worked.progress {s s' : RingCheckerMulticore} (h : Worked s s') (hp : Progress env s) :
    Progress env s' := by
  rw [Progress] at hp ⊢
  rw [h.main]
  rcases hmain : s.main with _ | call | ⟨call, rest⟩ | ⟨call, arg, rest⟩ | call <;>
    rw [hmain] at hp
  · trivial
  · exact h.accounts _ hp
  · obtain ⟨done, jobs, hdone, hcollected, haccounts, htotal⟩ := hp
    exact ⟨done, jobs, hdone, hcollected, h.accounts _ haccounts, h.totalCounter.trans htotal⟩
  · obtain ⟨done, jobs, hdone, hcollected, haccounts, htotal⟩ := hp
    exact ⟨done, jobs, hdone, hcollected, h.accounts _ haccounts, h.totalCounter.trans htotal⟩
  · obtain ⟨jobs, hcollected, haccounts, htotal⟩ := hp
    exact ⟨jobs, hcollected, h.accounts _ haccounts, h.totalCounter.trans htotal⟩

theorem sound_take {s : RingCheckerMulticore} (hs : s.Sound env) {thread : ℕ}
    {arg : RingSignatureArg} {args : List RingSignatureArg} (hthread : s.threads[thread]? = some none)
    (hargs : s.args = arg :: args) : Sound env { s with
      args := args
      threads := s.threads.set thread (some (s.workCounter, arg)) } := by
  have hheld := heldJobs_set_some (s.workCounter, arg) hthread
  refine ⟨fun job hjob ↦ ?_, hs.ready, hs.errors, ?_⟩
  · rcases List.mem_cons.mp (hheld.mem_iff.mp hjob) with rfl | hold
    · exact le_refl _
    · exact hs.held_le job hold
  · refine Worked.progress (s := s) ⟨rfl, rfl, fun jobs hjobs ↦ ?_⟩ hs.progress
    -- the signature goes from the queue to the thread
    have hrunning := current_perm (n := s.workCounter) hheld
    rw [current_cons_self] at hrunning
    rw [Accounts, hargs, ← Multiset.cons_coe] at hjobs
    rw [Accounts, running_eq]
    dsimp only
    rw [Multiset.coe_eq_coe.mpr hrunning, ← Multiset.cons_coe, ← hjobs, running_eq]
    simp only [← Multiset.singleton_add]
    abel

theorem sound_publish {s : RingCheckerMulticore} (hs : s.Sound env) {thread n : ℕ}
    {arg : RingSignatureArg} (hthread : s.threads[thread]? = some (some (n, arg))) :
    (s.publish env thread n arg).Sound env := by
  have hheld := heldJobs_set_none hthread
  have hle : ∀ job ∈ heldJobs (s.threads.set thread none), job.1 ≤ s.workCounter := fun job hjob ↦
    hs.held_le job (hheld.mem_iff.mpr (List.mem_cons_of_mem _ hjob))
  have hrunning := current_perm (n := s.workCounter) hheld
  rw [publish]
  split_ifs with hn
  · refine ⟨hle, ?_, ?_, Worked.progress (s := s) ⟨rfl, rfl, fun jobs hjobs ↦ ?_⟩ hs.progress⟩
    · show s.readyCounter + 1 = (s.counted ++ [arg]).length
      rw [hs.ready, List.length_append, List.length_singleton]
    · show s.errors ++ errorOf (check env arg) = _
      rw [hs.errors, List.flatMap_append, List.flatMap_singleton]
    · -- the signature goes from the thread to the counted ones
      dsimp only at hn
      subst hn
      rw [current_cons_self] at hrunning
      rw [Accounts, running_eq, Multiset.coe_eq_coe.mpr hrunning, ← Multiset.cons_coe] at hjobs
      rw [Accounts, running_eq, ← hjobs]
      dsimp only
      rw [← Multiset.coe_add]
      simp only [← Multiset.singleton_add, Multiset.coe_singleton]
      abel
  · refine ⟨hle, hs.ready, hs.errors, Worked.progress (s := s) ⟨rfl, rfl, fun jobs hjobs ↦ ?_⟩ hs.progress⟩
    -- a result of an earlier block: nothing of the current one has moved
    dsimp only at hn
    rw [current_cons_of_ne hn] at hrunning
    rw [Accounts, running_eq, Multiset.coe_eq_coe.mpr hrunning] at hjobs
    exact hjobs

/-! ## The main thread -/

theorem sound_startWork {s s' : RingCheckerMulticore} {call : StartCall} (hs : s.Sound env)
    (h : s.startWork call = .ok s') : s'.Sound env := by
  rw [startWork] at h
  split_ifs at h
  obtain rfl := Except.ok.inj h
  refine ⟨fun job hjob ↦ (hs.held_le job hjob).trans (Nat.le_succ _), rfl, rfl, ?_⟩
  -- whatever the threads still do belongs to an earlier block
  have hnone : current (s.workCounter + 1) (heldJobs s.threads) = [] :=
    current_eq_nil fun job hjob ↦ Nat.lt_succ_of_le (hs.held_le job hjob)
  show Multiset.ofList [] + Multiset.ofList (current (s.workCounter + 1) (heldJobs s.threads))
    + Multiset.ofList [] + Multiset.ofList [] = Multiset.ofList []
  rw [hnone]
  rfl

theorem sound_cancelWork {s s' : RingCheckerMulticore} (hs : s.Sound env)
    (h : s.cancelWork = .ok s') : s'.Sound env := by
  rw [cancelWork] at h
  split_ifs at h
  obtain rfl := Except.ok.inj h
  refine ⟨fun job hjob ↦ (hs.held_le job hjob).trans (Nat.le_succ _), hs.ready, hs.errors,
    Worked.progress (s := s) ⟨rfl, rfl, fun jobs hjobs ↦ ?_⟩ hs.progress⟩
  have hnone : current (s.workCounter + 1) (heldJobs s.threads) = [] :=
    current_eq_nil fun job hjob ↦ Nat.lt_succ_of_le (hs.held_le job hjob)
  rw [Accounts] at hjobs
  show Multiset.ofList s.counted
    + Multiset.ofList (current (s.workCounter + 1) (heldJobs s.threads))
    + Multiset.ofList [] + Multiset.ofList (s.dropped ++ s.running ++ s.args)
    = Multiset.ofList jobs
  rw [hnone, ← hjobs, ← Multiset.coe_add, ← Multiset.coe_add, Multiset.coe_nil]
  abel

private theorem sound_nextInput {s : RingCheckerMulticore} {call : StartCall} {input : InputOfTransaction}
    {rest : List InputOfTransaction} (hs : s.Sound env)
    (hmain : s.main = .filling call (input :: rest)) : (s.nextInput env call input rest).Sound env := by
  have hprogress := hs.progress
  rw [Progress, hmain] at hprogress
  obtain ⟨done, jobs, hdone, hcollected, haccounts, htotal⟩ := hprogress
  have hdone' : call.inputs = (done ++ [input]) ++ rest := by rw [hdone]; simp
  rw [nextInput]
  rcases hinput : call.arg env input with e | _ | arg
  · exact ⟨hs.held_le, hs.ready, hs.errors, trivial⟩
  · have hcollected' := hcollected.append hinput
    rw [Option.toList_none, List.append_nil] at hcollected'
    exact ⟨hs.held_le, hs.ready, hs.errors,
      ⟨done ++ [input], jobs, hdone', hcollected', haccounts, htotal⟩⟩
  · exact ⟨hs.held_le, hs.ready, hs.errors,
      ⟨done ++ [input], jobs, hdone', hcollected.append hinput, haccounts,
        congrArg (· + 1) htotal⟩⟩

private theorem sound_push {s : RingCheckerMulticore} {call : StartCall} {arg : RingSignatureArg}
    {rest : List InputOfTransaction} (hs : s.Sound env) (hmain : s.main = .pushing call arg rest) :
    Sound env { s with args := s.args ++ [arg], main := .filling call rest } := by
  have hprogress := hs.progress
  rw [Progress, hmain] at hprogress
  obtain ⟨done, jobs, hdone, hcollected, haccounts, htotal⟩ := hprogress
  refine ⟨hs.held_le, hs.ready, hs.errors, ⟨done, jobs ++ [arg], hdone, hcollected, ?_, ?_⟩⟩
  · rw [Accounts] at haccounts
    show Multiset.ofList s.counted + Multiset.ofList s.running + Multiset.ofList (s.args ++ [arg])
      + Multiset.ofList s.dropped = Multiset.ofList (jobs ++ [arg])
    rw [← Multiset.coe_add, ← Multiset.coe_add, ← haccounts]
    abel
  · rw [List.length_append, List.length_singleton]
    exact htotal

theorem sound_step {s s' : RingCheckerMulticore} {a : Action} (hs : s.Sound env)
    (h : s.step env a = .ok s') : s'.Sound env := by
  rcases a with call | _ | _ | _ | _ | _ | _ | thread | thread <;> simp only [step] at h
  · split at h
    · exact sound_startWork hs h
    · exact sound_startWork hs h
    · cases h
  · split at h
    · next call hmain =>
      have hprogress := hs.progress
      rw [Progress, hmain] at hprogress
      obtain rfl := Except.ok.inj h
      exact ⟨hs.held_le, hs.ready, hs.errors, ⟨[], [], rfl, .nil env call, hprogress, rfl⟩⟩
    · cases h
  · split at h
    · next call input rest hmain =>
      obtain rfl := Except.ok.inj h
      exact sound_nextInput hs hmain
    · cases h
  · split at h
    · next call arg rest hmain =>
      obtain rfl := Except.ok.inj h
      exact sound_push hs hmain
    · cases h
  · split at h
    · next call hmain =>
      have hprogress := hs.progress
      rw [Progress, hmain] at hprogress
      obtain ⟨done, jobs, hdone, hcollected, haccounts, htotal⟩ := hprogress
      obtain rfl := Except.ok.inj h
      rw [List.append_nil] at hdone
      exact ⟨hs.held_le, hs.ready, hs.errors, ⟨jobs, hdone ▸ hcollected, haccounts, htotal⟩⟩
    · cases h
  · split at h
    · cases h
    · cases h
    · obtain rfl := Except.ok.inj h
      exact ⟨hs.held_le, hs.ready, hs.errors, trivial⟩
  · split at h
    · exact sound_cancelWork hs h
    · exact sound_cancelWork hs h
    · cases h
  · split at h
    · next arg args hthread hargs =>
      obtain rfl := Except.ok.inj h
      exact sound_take hs hthread hargs
    · cases h
  · split at h
    · next n arg hthread =>
      obtain rfl := Except.ok.inj h
      exact sound_publish hs hthread
    · cases h

theorem sound_of_reachable {threads : ℕ} {s : RingCheckerMulticore}
    (h : Reachable env threads s) : s.Sound env := by
  refine Reaches.invariant (fun s hs ↦ ?_) (fun s a s' _ hs _ hstep ↦ sound_step hs hstep) h
  rw [hs]
  exact ⟨fun job hjob ↦ by simp [new] at hjob, rfl, rfl, trivial⟩

private theorem errorOf_eq_nil {r : RingResult} : errorOf r = [] ↔ r = .valid := by
  cases r <;> simp [errorOf]

/-- Parallel checking is sound under every schedule. Take any number of threads and any run, with any
blocks started, failed or given up before. Once `start_work_get_error` has accepted a block, what it
has collected are the signatures of the key inputs of the block, and each of them is in one place:
counted, being checked, queued, or dropped by a `cancel_work` that was called since. When
`signatures_valid` returns, the counted signatures are these and no others, and it returns true
exactly when the primitive accepts every ring signature of every key input of the block, with the keys
of the outputs that the input names. While it waits and nothing was dropped, there is a signature that
a thread has or can take. -/
theorem signaturesValid_sound {threads : ℕ} {s : RingCheckerMulticore}
    (h : Reachable env threads s) {call : StartCall} (hmain : s.main = .started call) :
    ∃ jobs, startWorkGetError env call.view call.block call.unlockHeight call.unlockTimestamp
        = .ok jobs ∧
      (s.counted ++ s.running ++ s.args ++ s.dropped).Perm jobs ∧
      (∀ r, s.signaturesValid = some r →
        s.counted.Perm jobs ∧ (r = true ↔ call.AllValid env)) ∧
      (s.signaturesValid = none → s.dropped = [] → s.running ≠ [] ∨ s.args ≠ []) := by
  have hs := sound_of_reachable h
  have hprogress := hs.progress
  rw [Progress, hmain] at hprogress
  obtain ⟨jobs, hcollected, haccounts, htotal⟩ := hprogress
  have hperm : (s.counted ++ s.running ++ s.args ++ s.dropped).Perm jobs := by
    apply Multiset.coe_eq_coe.mp
    rw [← haccounts, ← Multiset.coe_add, ← Multiset.coe_add, ← Multiset.coe_add]
  have hlength := hperm.length_eq
  simp only [List.length_append] at hlength
  refine ⟨jobs, hcollected.startWorkGetError, hperm, fun r hr ↦ ?_, fun hwait hdropped ↦ ?_⟩
  · rw [signaturesValid] at hr
    split_ifs at hr with hready
    -- as many results as signatures, so nothing is left anywhere else
    rw [hs.ready, htotal] at hready
    have hrunning : s.running = [] := List.eq_nil_of_length_eq_zero (by omega)
    have hargs : s.args = [] := List.eq_nil_of_length_eq_zero (by omega)
    have hdropped : s.dropped = [] := List.eq_nil_of_length_eq_zero (by omega)
    rw [hrunning, hargs, hdropped, List.append_nil, List.append_nil, List.append_nil] at hperm
    refine ⟨hperm, ?_⟩
    obtain rfl := Option.some.inj hr
    have hnone : s.errors.isEmpty = true ↔ ∀ arg ∈ jobs, check env arg = .valid := by
      rw [List.isEmpty_iff, hs.errors, List.flatMap_eq_nil_iff]
      simp only [errorOf_eq_nil, hperm.mem_iff]
    exact hnone.trans hcollected.allValid_iff
  · rw [signaturesValid] at hwait
    split_ifs at hwait with hready
    rw [hs.ready, htotal] at hready
    by_contra hidle
    obtain ⟨hrunning, hargs⟩ := not_or.mp hidle
    rw [not_not.mp hrunning, not_not.mp hargs, hdropped] at hlength
    simp only [List.length_nil] at hlength
    omega

/-- A network where a ring signature is valid if there is a signature for each key. -/
def sampleSigning : Env where
  crypto := { Crypto.lax with
    checkRingSignature := fun _ _ keys signatures ↦
      if signatures.length = keys.length then .valid else .invalid }
  currency := (Env.lax 5).currency

/-- A transaction whose inputs have rings of one output, with the key 5. -/
def sampleSigned (signatures : List (List Signature)) : Transaction where
  inputs := signatures.map fun signature ↦
    .keyInput { outputIndexes := [0], keyImage := BitVec.ofNat 256 signature.length }
  signatures := signatures

def sampleCall (transactions : List Transaction) : StartCall where
  view := {
    readKeyimage := fun _ ↦ none
    nextGlobalIndexForAmount := fun _ ↦ 1
    readAmountOutput := fun _ _ ↦ some { publicKey := 5 } }
  block := { transactions := transactions }
  unlockHeight := 1
  unlockTimestamp := 0

/-- The first input of the block has two signatures for its ring of one key, the other one is valid. -/
def sampleForged : StartCall := sampleCall [sampleSigned [[3, 3]], sampleSigned [[3]]]

/-- Two threads. A block is given up while the first thread checks its signature, which is valid; the
result comes when the next block is in work, and is thrown away. -/
private theorem exists_sampleRun : ∃ s, Reachable sampleSigning 2 s ∧ s.main = .started sampleForged ∧
    s.workCounter = 2 ∧ s.signaturesValid = some false := by
  have h₀ : Reachable sampleSigning 2 (new 2) := .start rfl
  have h₁ := h₀.next trivial (i := Action.startWork (sampleCall [sampleSigned [[3], [3]]])) rfl
  have h₂ := h₁.next trivial (i := Action.zeroTotal) rfl
  have h₃ := h₂.next trivial (i := Action.nextInput) rfl
  have h₄ := h₃.next trivial (i := Action.push) rfl
  have h₅ := h₄.next trivial (i := Action.take 0) rfl
  have h₆ := h₅.next trivial (i := Action.abandon) rfl
  have h₇ := h₆.next trivial (i := Action.startWork sampleForged) rfl
  have h₈ := h₇.next trivial (i := Action.zeroTotal) rfl
  have h₉ := h₈.next trivial (i := Action.nextInput) rfl
  have h₁₀ := h₉.next trivial (i := Action.push) rfl
  -- the other thread takes the signature while the main thread is still in the loop
  have h₁₁ := h₁₀.next trivial (i := Action.take 1) rfl
  have h₁₂ := h₁₁.next trivial (i := Action.publish 0) rfl
  have h₁₃ := h₁₂.next trivial (i := Action.nextInput) rfl
  have h₁₄ := h₁₃.next trivial (i := Action.push) rfl
  have h₁₅ := h₁₄.next trivial (i := Action.take 0) rfl
  have h₁₆ := h₁₅.next trivial (i := Action.finish) rfl
  have h₁₇ := h₁₆.next trivial (i := Action.publish 0) rfl
  have h₁₈ := h₁₇.next trivial (i := Action.publish 1) rfl
  exact ⟨_, h₁₈, rfl, rfl, rfl⟩

/-- Both signatures of the block are counted, and one of them is not valid. -/
theorem signaturesValid_sound_sample : ∃ s jobs, Reachable sampleSigning 2 s ∧
    s.signaturesValid = some false ∧
    startWorkGetError sampleSigning sampleForged.view sampleForged.block 1 0 = .ok jobs ∧
    s.counted.Perm jobs ∧ ¬sampleForged.AllValid sampleSigning := by
  obtain ⟨s, hs, hmain, -, hresult⟩ := exists_sampleRun
  obtain ⟨jobs, hjobs, -, hreturns, -⟩ := signaturesValid_sound hs hmain
  obtain ⟨hcounted, hvalid⟩ := hreturns false hresult
  exact ⟨s, jobs, hs, hresult, hjobs, hcounted, fun hall ↦ Bool.false_ne_true (hvalid.mpr hall)⟩

end RingCheckerMulticore

end CryoNero
