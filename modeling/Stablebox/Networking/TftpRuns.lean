import Stablebox.Networking.TftpGet

/-! Whole runs of a get. Once the client has taken the port of a transfer, the server is at the block that
the client waits for or at the one before it. -/
namespace Stablebox.Tftp

open Libbb List

variable {g : Setting} {s : System} {c : Client} {tid : Nat} {t : Transfer}

/-- Nothing but requests, and what was sent to one port with the acknowledgements as they should be. -/
def LogAt (g : Setting) (tid count : Nat) (log : List Sent) : Prop :=
  ∀ d ∈ log, d.dest = g.port ∨
    (d.dest = tid ∧ d.count ≤ count ∧ (word ack <+: d.bytes → d.bytes = ackPacket d.count))

inductive Phase (g : Setting) (s : System) : Prop where
  | requesting (c : Client) (waits : s.status = .waiting c) (requests : Requests g c)
    (log : ∀ d ∈ s.log, d = ⟨g.port,requestPacket rrq g.remotefile (sizeOption g.asked),0⟩)
    (offered : ∀ tid t, s.transfers tid = some t → tid ≠ g.port ∧ g.Serves (sizeOption g.asked) t)
  | loading (c : Client) (waits : s.status = .waiting c) (tid : Nat) (t : Transfer) (opened : s.transfers tid = some t)
    (loads : Loads g.file t.blksize g.port tid c) (least : c.written.length ≤ t.latest)
    (most : t.latest ≤ c.written.length + 1) (log : LogAt g tid c.written.length s.log)
    (others : ∀ tid t, s.transfers tid = some t → tid ≠ g.port)
  | exited (c : Client) (ended : s.status = .exit c) (complete : c.finished = true → c.written.flatten = g.file)

theorem Phase.advance {count : Nat} (opened : s.transfers tid = some t) (least : count ≤ t.latest)
    (most : t.latest ≤ count + 1) (log : LogAt g tid count s.log)
    (others : ∀ tid t, s.transfers tid = some t → tid ≠ g.port)
    (advances : Advances g.file t.blksize g.port tid count t.latest turn) : Phase g (s.turn turn) := by
  rcases advances with ⟨next,rfl,loads,counted⟩ | ⟨next,sent,rfl,complete⟩
  · refine .loading next rfl tid t opened loads (by omega) (by omega) ?_ others
    intro d listed
    rcases mem_append.mp listed with old | new
    · rcases log d old with request | ⟨dest,older,acknowledges⟩
      · exact .inl request
      · exact .inr ⟨dest,by omega,acknowledges⟩
    · obtain rfl := mem_singleton.mp new
      exact .inr ⟨rfl,le_rfl,loads.packet⟩
  · exact .exited next rfl complete

theorem Transfer.Sends.foreign {count : Nat} (sends : t.Sends file count bytes) :
    ∃ code rest, bytes = word code ++ rest ∧ code < 65536 ∧ code ≠ ack := by
  cases sends with
  | options _ name _ => exact ⟨Tftp.oack,_,rfl,by decide,by decide⟩
  | block i _ _ => exact ⟨data,_,append_assoc _ _ _,by decide,by decide⟩
  | error rest => exact ⟨Tftp.error,rest,rfl,by decide,by decide⟩

theorem acknowledged_latest {count latest heard : Nat} (same : ackPacket latest = ackPacket heard)
    (least : count ≤ latest) (older : heard ≤ count) (young : latest < heard + 65536) : latest = count := by
  have number := (word_inj (Nat.mod_lt _ (by decide)) (Nat.mod_lt _ (by decide))).mp (append_cancel_left same)
  omega

theorem Requests.timeout (requests : Requests g c) :
    (∃ next, step c .timeout = ⟨.waiting next,[(g.port,next.packet)]⟩ ∧ Requests g next) ∨
    step c .timeout = ⟨.exit c,[]⟩ := by
  by_cases last : c.timeout - 1 = 0
  · exact .inr (by rw [step,if_pos last])
  refine .inl ⟨arm c (c.timeout - 1),?_,?_⟩
  · rw [step,if_neg last,← requests.sa]
    rfl
  · exact { requests with }

theorem Phase.failed (fails : c.finished = false) : Phase g (s.turn ⟨.exit c,sent⟩) :=
  .exited c rfl fun done => by
    cases fails.symm.trans done

theorem Phase.move (small : g.asked < 65532) (fits : g.Fits) (whole : g.Whole) (phase : Phase g s)
    (move : Move g s s') :
    Phase g s' := by
  cases phase with
  | requesting c waits requests log offered =>
    have others : ∀ tid t, s.transfers tid = some t → tid ≠ g.port := fun tid t opened => (offered tid t opened).1
    cases move with
    | timeout c' waits' =>
      obtain rfl := Status.waiting.inj (waits.symm.trans waits')
      rcases requests.timeout with ⟨next,stepped,again⟩ | stepped
      · rw [stepped]
        refine .requesting next rfl again ?_ offered
        intro d listed
        rcases mem_append.mp listed with old | new
        · exact log d old
        · obtain rfl := mem_singleton.mp new
          simp [again.packet,Status.client,again.written]
      · rw [stepped]
        exact .failed requests.finished
    | failure c' waits' =>
      obtain rfl := Status.waiting.inj (waits.symm.trans waits')
      exact .failed requests.finished
    | deliver c' waits' tid t opened bytes sends =>
      obtain rfl := Status.waiting.inj (waits.symm.trans waits')
      rw [requests.written] at sends
      refine .advance opened (Nat.zero_le _) ?_ ?_ others
        (requests.deliver small fits whole tid t (offered tid t opened).2 sends)
      · rcases Setting.serves_cases (offered tid t opened).2 with ⟨_,_,_,_,none⟩ | ⟨-,rfl⟩
        · omega
        · exact le_rfl
      · intro d listed
        rw [log d listed]
        exact .inl rfl
    | accept size count heard tid other fresh t serves =>
      have asked := congrArg Sent.bytes (log _ heard)
      rw [requestPacket_inj asked] at serves
      exact .requesting c waits requests log (System.serve_all offered ⟨other,serves⟩)
    | acknowledge tid t opened count heard young more =>
      exact absurd (congrArg Sent.dest (log _ heard)) (others tid t opened)
  | loading c waits tid t opened loads least most log others =>
    cases move with
    | timeout c' waits' =>
      obtain rfl := Status.waiting.inj (waits.symm.trans waits')
      exact .advance opened least most log others (loads.timeout _)
    | failure c' waits' =>
      obtain rfl := Status.waiting.inj (waits.symm.trans waits')
      exact .failed loads.finished
    | deliver c' waits' tid' t' opened' bytes sends =>
      obtain rfl := Status.waiting.inj (waits.symm.trans waits')
      refine .advance opened least most log others ?_
      by_cases same : tid' = tid
      · subst same
        obtain rfl := Option.mem_unique opened opened'
        exact loads.deliver t rfl most sends
      · obtain ⟨code,rest,rfl,low,foreign⟩ := sends.foreign
        exact loads.stray (others tid t opened) _ same rest low foreign
    | accept size count heard tid' other fresh t' serves =>
      have different : tid ≠ tid' := by
        rintro rfl
        cases fresh.symm.trans opened
      exact .loading c waits tid t ((s.serve_other t' different).trans opened) loads least most log
        (System.serve_all others other)
    | acknowledge tid' t' opened' count heard young more =>
      rcases log _ heard with request | ⟨dest,older,acknowledges⟩
      · exact absurd request (others tid' t' opened')
      obtain rfl : tid' = tid := dest
      obtain rfl := Option.mem_unique opened opened'
      have latest := acknowledged_latest (acknowledges (prefix_append _ _)) least older young
      exact .loading c waits tid' { t with latest := t.latest + 1 } (s.serve_self ..) loads (Nat.le_succ_of_le least)
        (Nat.succ_le_succ latest.le) log (System.serve_all others (others tid' t opened))
  | exited c ended complete =>
    cases move with
    | timeout c' waits' => rw [ended] at waits'; cases waits'
    | failure c' waits' => rw [ended] at waits'; cases waits'
    | deliver c' waits' tid t opened bytes sends => rw [ended] at waits'; cases waits'
    | accept size count heard tid other fresh t serves => exact .exited c ended complete
    | acknowledge tid t opened count heard young more => exact .exited c ended complete

theorem Phase.initial (small : g.asked < 65532) (fits : g.Fits) : Phase g g.initial := by
  obtain ⟨c,begun,requests⟩ := start_get g (by omega) fits
  rw [Setting.initial,begun]
  refine .requesting c rfl requests ?_ (by intro tid t opened; cases opened)
  intro d listed
  obtain rfl := mem_singleton.mp listed
  simp [requests.packet,Status.client,requests.written]

theorem Phase.reachable (small : g.asked < 65532) (fits : g.Fits) (whole : g.Whole) (reachable : g.Reachable s) :
    Phase g s := by
  induction reachable with
  | refl => exact .initial small fits
  | tail _ move ih => exact ih.move small fits whole move

theorem Phase.complete (phase : Phase g s) : g.Complete s.status := by
  intro success
  cases phase with
  | requesting c waits => rw [waits] at success; cases success
  | loading c waits => rw [waits] at success; cases success
  | exited c ended complete =>
    rw [ended] at success ⊢
    exact complete success

/-! ### A request that does not fit, and a block that is cut off -/

theorem large_fails (large : ¬ g.Fits) (reachable : g.Reachable s) : s.status.succeeded = false := by
  have begun : ∃ c, s.status = .exit c ∧ c.finished = false := by
    induction reachable with
    | refl =>
      obtain ⟨c,begun,fails⟩ := start_large large
      exact ⟨c,by rw [Setting.initial,begun]; rfl,fails⟩
    | tail _ move ih =>
      obtain ⟨c,ended,fails⟩ := ih
      cases move with
      | timeout c' waits => cases ended.symm.trans waits
      | failure c' waits => cases ended.symm.trans waits
      | deliver c' waits => cases ended.symm.trans waits
      | accept => exact ⟨c,ended,fails⟩
      | acknowledge => exact ⟨c,ended,fails⟩
  obtain ⟨c,ended,fails⟩ := begun
  rw [ended]
  exact fails

theorem cut_reachable (unknown : g.supports = false) (small : g.asked < blocksizeDefault) (fits : g.Fits) :
    ∃ s, g.Reachable s ∧ s.status.succeeded = true ∧ s.status.client.written.flatten = g.file.take g.asked := by
  obtain ⟨c,begun,requests⟩ := start_get g (by simp only [blocksizeDefault] at small; omega) fits
  have waits : g.initial.status = .waiting c := by rw [Setting.initial,begun]; rfl
  have heard : ⟨g.port,requestPacket rrq g.remotefile (sizeOption g.asked),0⟩ ∈ g.initial.log := by
    rw [Setting.initial,begun]
    simp [System.turn,requests.packet,Status.client,requests.written]
  have serves : g.Serves (sizeOption g.asked) ⟨blocksizeDefault,false,1⟩ := by
    rw [sizeOption,if_neg (ne_of_lt small)]
    simp only [Setting.Serves,unknown]
  have accepted : Move g g.initial (g.initial.serve (g.port + 1) ⟨blocksizeDefault,false,1⟩) :=
    .accept _ _ heard (g.port + 1) (by omega) (by rw [Setting.initial]; rfl) _ serves
  have delivered := Move.deliver (g := g) (s := g.initial.serve (g.port + 1) ⟨blocksizeDefault,false,1⟩) c waits
    (g.port + 1) ⟨blocksizeDefault,false,1⟩ (System.serve_self ..) (dataPacket g.file blocksizeDefault 1 0)
    (.block 0 (by decide) (by simp [requests.written]))
  refine ⟨_,.tail (.tail .refl accepted) delivered,?_⟩
  obtain ⟨stepped,-,content⟩ := requests.first (g.port + 1)
  generalize stated : revert (settle (recode (receive c (g.port + 1) (dataPacket g.file blocksizeDefault 1 0)) data)) =
    held
    at stepped
  have long : 4 ≤ min (dataPacket g.file blocksizeDefault 1 0).length c.bufsize := by
    simp [dataPacket,word_length,requests.bufsize]
    omega
  generalize min (dataPacket g.file blocksizeDefault 1 0).length c.bufsize = len at stepped content long
  have cmd : held.cmd = .get := by subst stated; exact requests.cmd
  have opcode : held.opcode = data := by subst stated; rfl
  have number : 1 = held.blockNr.toNat := by subst stated; simp [revert,settle,recode,receive,requests.blockNr]
  have cut : len - 4 ≠ held.bufsize - 4 := by
    have short := congrArg List.length content
    rw [Memory.get_length,length_take] at short
    have full : held.bufsize - 4 = blocksizeDefault := by subst stated; rfl
    omega
  have finished : (store held len).finished = true := by simp [store,cut]
  rw [answer,if_pos ⟨cmd,opcode,number⟩,if_neg (not_lt.mpr long),
    launch_ends (build_ack (c := store held len) cmd rfl) finished rfl] at stepped
  rw [stepped]
  refine ⟨finished,?_⟩
  have written : (store held len).written = [(block g.file blocksizeDefault 0).take g.asked] := by
    rw [← content]
    subst stated
    simp [store,revert,settle,recode,receive,requests.written]
  refine (congrArg List.flatten written).trans ?_
  simp [block,take_take,min_eq_left (le_of_lt small)]

/-- A get from a server that follows the protocol is successful only with the whole file, if and only if the
server knows the option, or at least 512 was asked for, or the file fits into the first block asked for, or the
request does not fit into the buffer. -/
theorem tftp_get_complete_iff (g : Setting) (least : 8 ≤ g.asked) (most : g.asked ≤ 65464) :
    (∀ s, g.Reachable s → g.Complete s.status) ↔
      (g.supports = true ∨ 512 ≤ g.asked ∨ g.file.length ≤ g.asked ∨ g.asked < g.remotefile.length + 21) := by
  constructor
  · intro complete
    by_contra none
    simp only [not_or,Bool.not_eq_true,not_le,not_lt] at none
    obtain ⟨unknown,small,longer,room⟩ := none
    have fits : g.Fits := by
      rw [Setting.Fits,if_neg (ne_of_lt small : g.asked ≠ blocksizeDefault)]
      exact room
    obtain ⟨s,reachable,success,written⟩ := cut_reachable unknown small fits
    have whole := congrArg List.length ((complete s reachable success).symm.trans written)
    rw [length_take] at whole
    omega
  · intro condition s reachable
    by_cases fits : g.Fits
    · have whole : g.Whole := by
        rcases condition with known | default | short | large
        · exact .inl known
        · exact .inr (.inl default)
        · exact .inr (.inr short)
        rw [Setting.Fits] at fits
        split at fits
        · rename_i default
          exact .inr (.inl default.ge)
        · omega
      exact (Phase.reachable (by omega) fits whole reachable).complete
    · intro success
      cases (large_fails fits reachable).symm.trans success

theorem tftp_get_complete_blocks : 8 ≤ 24 ∧ 24 ≤ 65464 ∧
    ∀ s, Setting.Reachable ⟨69,text "f",24,replicate 60 7,true⟩ s →
      Setting.Complete ⟨69,text "f",24,replicate 60 7,true⟩ s.status :=
  ⟨by decide,by decide,
    (tftp_get_complete_iff ⟨69,text "f",24,replicate 60 7,true⟩ (by decide) (by decide)).mpr (.inl rfl)⟩

/-- A file of 101 bytes of which 100 are written with success. -/
theorem tftp_get_cut :
    ∃ s, Setting.Reachable ⟨69,text "f",100,replicate 101 7,false⟩ s ∧ s.status.succeeded = true ∧
      s.status.client.written.flatten = replicate 100 7 := by
  obtain ⟨s,reachable,success,written⟩ := cut_reachable (g := ⟨69,text "f",100,replicate 101 7,false⟩) rfl (by decide)
      (by rw [Setting.Fits]; decide)
  exact ⟨s,reachable,success,written.trans (take_replicate ..)⟩

end Stablebox.Tftp
