/- module: TaskerRT/Daemon/Durable
   source: crates/taskerd/src/journal.rs (persist, run_writer)
   digest: Acknowledged batches survive every failure that leaves a clean log or a full magic. -/

import TaskerRT.Daemon.Writer

set_option autoImplicit false

namespace TaskerRT.Daemon

open Library Domain Wal

section Checksummed

variable [Crc32]

section Coverage

variable {history : History} {snapshot : Option Snapshot} {records : List Record} {b : Batch}

private theorem TakenBy.mono {later later' : History} (h : TakenBy snapshot later)
    (hsub : later ⊆ later') :
    TakenBy snapshot later' := by
  obtain ⟨d, hd, hsome, heq⟩ := h
  exact ⟨d, hsub hd, hsome, heq⟩

private theorem Covered.snoc (h : Covered history snapshot records) {acked : Bool}
    (hnew : acked = true → Kept b [] snapshot records) :
    Covered (history ++ [(b, acked)]) snapshot records := by
  intro c later hsuffix
  rcases List.suffix_concat_iff.1 hsuffix with hnil | ⟨rest, hrest, hsub⟩
  · exact nomatch hnil
  cases rest with
  | nil =>
    obtain ⟨hc, rfl⟩ := List.cons.inj hrest
    obtain ⟨rfl, rfl⟩ := Prod.mk.inj hc
    exact hnew rfl
  | cons d rest =>
    obtain ⟨rfl, rfl⟩ := List.cons.inj hrest
    obtain ⟨hbefore, hframes⟩ := h c rest hsub
    exact ⟨hbefore.imp_right fun ht => ht.mono (List.cons_subset_cons _
        (List.subset_append_left _ _)),
      hframes.imp_right fun ht => ht.mono (List.subset_append_left _ _)⟩

private theorem Covered.grow (h : Covered history snapshot records) (more : List Record) :
    Covered history snapshot (records ++ more) := by
  intro c later hsuffix
  obtain ⟨hbefore, hframes⟩ := h c later hsuffix
  have hgrow : ∀ rs, rs <:+: records → rs <:+: records ++ more := fun rs hrs =>
    hrs.trans (List.prefix_append records more).isInfix
  exact ⟨hbefore.imp_left (hgrow _), hframes.imp_left (hgrow _)⟩

private theorem covered_of_snapshot {s : Snapshot} (hs : b.snapshot = some s) {acked : Bool}
    (hframes : acked = true → b.frames <:+: records) :
    Covered (history ++ [(b, acked)]) (some s) records := by
  have htaken : ∀ later : History, (b, acked) ∈ later → TakenBy (some s) later := fun later hb =>
    ⟨(b, acked), hb, by rw [hs]; rfl, hs.symm⟩
  intro c later hsuffix
  rcases List.suffix_concat_iff.1 hsuffix with hnil | ⟨rest, hrest, _⟩
  · exact nomatch hnil
  cases rest with
  | nil =>
    obtain ⟨hc, rfl⟩ := List.cons.inj hrest
    obtain ⟨rfl, rfl⟩ := Prod.mk.inj hc
    exact ⟨.inr (htaken _ List.mem_cons_self), .inl (hframes rfl)⟩
  | cons d rest =>
    obtain ⟨rfl, rfl⟩ := List.cons.inj hrest
    have hmem : (b, acked) ∈ rest ++ [(b, acked)] :=
      List.mem_append_right _ List.mem_cons_self
    exact ⟨.inr (htaken _ (List.mem_cons_of_mem _ hmem)), .inr (htaken _ hmem)⟩

end Coverage

/-- The newest generation is `g`: its snapshot, the image of its log and what that parses to. -/
structure LogState (files : Directory) (g : Word 64) (snapshot : Option Snapshot)
    (records : List Record) (image : Bytes) (stop : Nat) : Prop where
  newest_eq : newest files = g
  snapshot_eq : readSnapshot files g = .ok snapshot
  image_eq : files.lookup (logPath g) = some image
  magic : logMagic <+: image
  parses : Parses image logMagic.length records stop

/-- The bytes stand at the end of one file and the others are as they were. -/
structure Appended (files left : Directory) (path : Name) (bytes : Bytes) : Prop where
  image_eq : left.lookup path = some (contents files path ++ bytes)
  other : ∀ n, n ≠ path → left.lookup n = files.lookup n

section Logs

variable {files left : Directory} {g : Word 64} {snapshot : Option Snapshot}
  {records : List Record} {image bytes : Bytes} {stop : Nat}

private theorem LogState.loads (h : LogState files g snapshot records image stop) :
    Loads files snapshot records := by
  rw [loads_iff, h.newest_eq]
  refine ⟨h.snapshot_eq, if stop < image.length then some stop else none, ?_⟩
  rw [readLog, h.image_eq]
  exact parseLog_eq_ok.2 ⟨h.magic, stop, h.parses, rfl⟩

private theorem LogState.congr (h : LogState files g snapshot records image stop)
    (hleft : Untouched files left) : LogState left g snapshot records image stop := by
  refine ⟨?_, ?_, ?_, h.magic, h.parses⟩
  · rw [← h.newest_eq]
    exact newest_congr fun n hn => by
      rw [← AList.lookup_isSome, ← AList.lookup_isSome, hleft n hn]
  · rw [← h.snapshot_eq, readSnapshot, readSnapshot, hleft _ (by simp)]
  · rw [hleft _ (by simp), h.image_eq]

private theorem LogState.append (h : LogState files g snapshot records image image.length)
    (hleft : Appended files left (logPath g) bytes) {more : List Record}
    (hparses : Parses (image ++ bytes) image.length more stop) :
    LogState left g snapshot (records ++ more) (image ++ bytes) stop := by
  have hcontents : contents files (logPath g) = image := by
    rw [contents, h.image_eq, Option.getD_some]
  refine ⟨?_, ?_, ?_, h.magic.trans (List.prefix_append _ _), h.parses.append hparses⟩
  · rw [← h.newest_eq]
    refine newest_congr fun n _ => ?_
    rw [← AList.lookup_isSome, ← AList.lookup_isSome]
    by_cases hn : n = logPath g
    · rw [hn, hleft.image_eq, h.image_eq]
      rfl
    · rw [hleft.other n hn]
  · rw [← h.snapshot_eq, readSnapshot, readSnapshot,
      hleft.other _ (snapshotPath_ne_logPath g g)]
  · rw [hleft.image_eq, hcontents]

omit [Crc32] in
private theorem Appended.untouched (h : Appended files left (logPath g) [])
    (himage : files.lookup (logPath g) = some image) : Untouched files left := by
  intro n _
  by_cases hn : n = logPath g
  · rw [hn, h.image_eq, contents, himage, Option.getD_some, List.append_nil]
  · exact h.other n hn

private theorem LogState.appendAll (h : LogState files g snapshot records image image.length)
    {more : List Record} (hmore : encodeAll more = some bytes)
    (hleft : Appended files left (logPath g) bytes) :
    LogState left g snapshot (records ++ more) (image ++ bytes) (image ++ bytes).length :=
  h.append hleft (parses_encodeAll image hmore)

private theorem LogState.appendCut (h : LogState files g snapshot records image image.length)
    {more : List Record} {cut : Bytes} (hmore : encodeAll more = some bytes)
    (hcut : cut <+: bytes) (hleft : Appended files left (logPath g) cut) :
    ∃ kept stop, LogState left g snapshot (records ++ kept) (image ++ cut) stop := by
  obtain ⟨kept, stop, hparses⟩ := parses_cut image hmore hcut
  exact ⟨kept, stop, h.append hleft hparses⟩

private theorem LogState.cutTorn (h : LogState files g snapshot records image stop) :
    ∃ image', LogState (cutTorn (logPath g) (if stop < image.length then some stop else none) files)
      g snapshot records image' image'.length := by
  have hle := h.parses.stop_le h.magic.length_le
  split
  next hlt =>
    have hcontents : contents files (logPath g) = image := by
      rw [contents, h.image_eq, Option.getD_some]
    have hlength : (image.take stop).length = stop := by rw [List.length_take]; omega
    refine ⟨image.take stop, ?_, ?_, ?_, ?_, ?_⟩
    · rw [← h.newest_eq]
      refine newest_congr fun n _ => ?_
      rw [Wal.cutTorn, truncateLog, AList.mem_insert, h.newest_eq]
      exact ⟨fun hn => hn.elim (fun heq => heq ▸ AList.lookup_isSome.1 (by rw [h.image_eq]; rfl)) id,
        .inr⟩
    · rw [Wal.cutTorn, truncateLog, readSnapshot,
        AList.lookup_insert_ne (snapshotPath_ne_logPath g g)]
      exact h.snapshot_eq
    · rw [Wal.cutTorn, truncateLog, AList.lookup_insert, hcontents]
    · exact List.prefix_of_prefix_length_le h.magic ( List.take_prefix _ _)
        (by rw [hlength]; exact h.parses.le)
    · rw [hlength]
      exact h.parses.take
  next hge =>
    obtain rfl : stop = image.length := by omega
    exact ⟨image, h⟩

end Logs

/-- A rotation got the snapshot of the next generation in place, but the store stayed on `g`. -/
structure Ahead (files : Directory) (g : Word 64) (s : Snapshot) : Prop where
  bounded : g ≠ Word.maxValue 64
  upTo : UpTo files (g + 1)
  snapshot : ∃ bytes, files.lookup (snapshotPath (g + 1)) = some bytes ∧
    decodeSnapshot bytes = .ok s
  unused : LogUnused files (logPath (g + 1))

private theorem Ahead.loads {files : Directory} {g : Word 64} {s : Snapshot} (h : Ahead files g s) :
    Loads files (some s) [] := by
  obtain ⟨bytes, hbytes, hdecode⟩ := h.snapshot
  exact loads_fresh hdecode h.upTo hbytes h.unused

private theorem Ahead.congr {files left : Directory} {g : Word 64} {s : Snapshot}
    (h : Ahead files g s)
    (hleft : Untouched files left) : Ahead left g s := by
  refine ⟨h.bounded, fun n hn g' hg => h.upTo n ?_ g' hg, ?_, ?_⟩
  · rw [← AList.lookup_isSome, ← hleft n (by simp [hg])]
    exact AList.lookup_isSome.2 hn
  · rw [hleft _ (by simp)]
    exact h.snapshot
  · rw [LogUnused, hleft _ (by simp)]
    exact h.unused

/-- What the writer keeps true: recovery finds every acknowledged batch. -/
structure Held (history : History) (store : Store) (files : Directory) : Prop where
  path_eq : store.log.path = logPath store.generation
  image : ∃ image, files.lookup (logPath store.generation) = some image
  state : (∃ snapshot records image stop,
      LogState files store.generation snapshot records image stop ∧
        Covered history snapshot records) ∨
    ∃ s, Ahead files store.generation s ∧ Covered history (some s) []

/-- The open log ends at a frame boundary and belongs to the newest generation. -/
def Clean (store : Store) (files : Directory) : Prop :=
  newest files = store.generation ∧
    ∃ records, parseLog (contents files store.log.path) = .ok ⟨records, none⟩

/-- What a batch appends to the log that is open when it arrives. -/
def retiring (c : Commit) : Bytes := if c.snapshot.isSome then c.before else c.before ++ c.frames

/-- The condition on a batch and its failure: nothing is appended to a log that is not clean,
unless the rotation that follows gets past its rename, and no new log is left with a part of its
magic. -/
structure Admissible (w : Writer) (c : Commit) (fault : Option Fault) : Prop where
  clean : retiring c ≠ [] →
    Clean w.store w.files ∨ (c.snapshot.isSome = true ∧ ¬ FailsEarly fault)
  magic : c.snapshot.isSome = true → ∀ n < logMagic.length, fault ≠ some ⟨.writeMagic, n⟩
  bounded : c.snapshot.isSome = true → w.store.generation ≠ Word.maxValue 64

section Steps

variable {history : History} {store : Store} {files left : Directory}

private theorem Held.loads (h : Held history store files) :
    ∃ snapshot records, Loads files snapshot records ∧ Covered history snapshot records := by
  rcases h.state with ⟨snapshot, records, _, _, hlog, hcovered⟩ | ⟨s, hahead, hcovered⟩
  · exact ⟨snapshot, records, hlog.loads, hcovered⟩
  · exact ⟨some s, [], hahead.loads, hcovered⟩

private theorem Held.clean (h : Held history store files) (hclean : Clean store files) :
    ∃ snapshot records image,
      LogState files store.generation snapshot records image image.length ∧
        Covered history snapshot records := by
  obtain ⟨hnewest, found, hparse⟩ := hclean
  rcases h.state with ⟨snapshot, records, image, stop, hlog, hcovered⟩ | ⟨s, hahead, _⟩
  · rw [h.path_eq, contents, hlog.image_eq, Option.getD_some] at hparse
    obtain ⟨_, stop', hparses, htorn⟩ := parseLog_eq_ok.1 hparse
    obtain ⟨_, rfl⟩ := hlog.parses.unique hparses
    have hle := hlog.parses.stop_le hlog.magic.length_le
    have hge : ¬ stop < image.length := fun hlt => by
      rw [if_pos hlt] at htorn
      cases htorn
    obtain rfl : stop = image.length := by omega
    exact ⟨snapshot, records, image, hlog, hcovered⟩
  · obtain ⟨bytes, hbytes, _⟩ := hahead.snapshot
    have hmem : snapshotPath (store.generation + 1) ∈ files :=
      AList.lookup_isSome.1 (by rw [hbytes]; rfl)
    have hle := Fin.le_def.1 (le_newest hmem (generationOf_snapshotPath _))
    have hval := Word.val_add_one hahead.bounded
    rw [hnewest] at hle
    omega

private theorem Held.untouched (h : Held history store files) (hleft : Untouched files left)
    {b : Batch}
    {acked : Bool} (hb : acked = true → b.before = [] ∧ b.frames = []) {store' : Store}
    (hgen : store'.generation = store.generation) (hpath : store'.log.path = store.log.path) :
    Held (history ++ [(b, acked)]) store' left := by
  have hnew : ∀ (snapshot : Option Snapshot) (records : List Record),
      acked = true → Kept b [] snapshot records := fun snapshot records hack => by
    obtain ⟨hbefore, hframes⟩ := hb hack
    exact ⟨.inl (hbefore ▸ List.nil_infix), .inl (hframes ▸ List.nil_infix)⟩
  refine ⟨by rw [hpath, hgen, h.path_eq], ?_, ?_⟩
  · rw [hgen, hleft _ (by simp)]
    exact h.image
  · rw [hgen]
    rcases h.state with ⟨snapshot, records, image, stop, hlog, hcovered⟩ | ⟨s, hahead, hcovered⟩
    · exact .inl ⟨snapshot, records, image, stop, hlog.congr hleft,
        hcovered.snoc (hnew snapshot _)⟩
    · exact .inr ⟨s, hahead.congr hleft, hcovered.snoc (hnew (some s) _)⟩

end Steps

section Phases

variable {store : Store} {files : Directory} {fault : Option Fault} {policy : SyncPolicy}
  {appendOp syncOp : Op} {bytes : Bytes}

omit [Crc32] in
/-- Appending and syncing writes all of the bytes, or a part of them and fails. -/
private theorem appendSynced_post :
    Post (appendSynced fault appendOp syncOp policy bytes store files)
      (fun out => (out.1.generation = store.generation ∧ out.1.log.path = store.log.path) ∧
        Appended files out.2 store.log.path bytes)
      (fun left => (∃ f, fault = some f ∧ (f.op = appendOp ∨ f.op = syncOp)) ∧
        ∃ cut, cut <+: bytes ∧ Appended files left store.log.path cut) := by
  have hwritten : ∀ cut, Appended files (files.insert store.log.path
      (contents files store.log.path ++ cut)) store.log.path cut := fun cut =>
    ⟨AList.lookup_insert _, fun n hn => AList.lookup_insert_ne hn⟩
  refine Post.bind (P := fun out => (out.1.generation = store.generation ∧
    out.1.log.path = store.log.path) ∧ Appended files out.2 store.log.path bytes) ?_ ?_
  · refine Post.bind (Post.attempt fun n hn =>
      ⟨⟨_, hn, .inl rfl⟩, bytes.take n, List.take_prefix _ _, hwritten _⟩) ?_
    rintro left ⟨rfl, -⟩
    exact Post.pure ⟨⟨rfl, rfl⟩, hwritten bytes⟩
  rintro ⟨store', left⟩ ⟨hstore, hleft⟩
  cases policy with
  | none => exact Post.pure ⟨hstore, hleft⟩
  | full | data =>
    simp only [syncLog, sync]
    refine Post.bind (Post.attempt fun n hn =>
      ⟨⟨_, hn, .inr rfl⟩, bytes, List.prefix_rfl, hleft⟩) ?_
    rintro synced ⟨rfl, -⟩
    exact Post.pure ⟨hstore, hleft⟩

private theorem LogState.appendSynced_post {snapshot : Option Snapshot} {records more : List Record}
    {image : Bytes} (h : LogState files store.generation snapshot records image image.length)
    (hpath : store.log.path = logPath store.generation) (hmore : encodeAll more = some bytes) :
    Post (appendSynced fault appendOp syncOp policy bytes store files)
      (fun out => (out.1.generation = store.generation ∧ out.1.log.path = store.log.path) ∧
        ∃ image', LogState out.2 store.generation snapshot (records ++ more) image' image'.length)
      (fun left => (∃ f, fault = some f ∧ (f.op = appendOp ∨ f.op = syncOp)) ∧
        ∃ kept image' stop,
          LogState left store.generation snapshot (records ++ kept) image' stop) := by
  refine Daemon.appendSynced_post.weaken ?_ ?_
  · rintro ⟨store', left⟩ ⟨hstore, hleft⟩
    rw [hpath] at hleft
    exact ⟨hstore, _, h.appendAll hmore hleft⟩
  · rintro left ⟨hop, cut, hcut, hleft⟩
    rw [hpath] at hleft
    obtain ⟨kept, stop, hlog⟩ := h.appendCut hmore hcut hleft
    exact ⟨hop, kept, _, stop, hlog⟩

/-- What a rotation needs of the directory: nothing beyond the next generation, whose log is not
in use, and the open log in place. -/
structure Based (files : Directory) (g : Word 64) : Prop where
  upTo : UpTo files (g + 1)
  unused : LogUnused files (logPath (g + 1))
  image : ∃ image, files.lookup (logPath g) = some image

private theorem Held.based {history : History} (h : Held history store files)
    (hmax : store.generation ≠ Word.maxValue 64) : Based files store.generation := by
  rcases h.state with ⟨_, _, _, _, hlog, _⟩ | ⟨s, hahead, _⟩
  · obtain ⟨hupTo, hnone⟩ := upTo_next hmax hlog.newest_eq
    exact ⟨hupTo, .inl hnone, h.image⟩
  · exact ⟨hahead.upTo, hahead.unused, h.image⟩

omit [Crc32] in
private theorem logPath_succ_ne {g : Word 64} (hmax : g ≠ Word.maxValue 64) :
    logPath (g + 1) ≠ logPath g := by
  refine ne_of_generationOf ?_
  rw [generationOf_logPath, generationOf_logPath]
  intro heq
  have hval := Word.val_add_one hmax
  rw [Option.some.inj heq] at hval
  omega

omit [Crc32] in
private theorem Based.append {left : Directory} {g : Word 64} {cut : Bytes} (h : Based files g)
    (hmax : g ≠ Word.maxValue 64) (hleft : Appended files left (logPath g) cut) :
    Based left g := by
  refine ⟨fun n hn g' hg => ?_, ?_, _, hleft.image_eq⟩
  · by_cases hpath : n = logPath g
    · rw [hpath, generationOf_logPath] at hg
      have hval := Word.val_add_one hmax
      rw [← Option.some.inj hg, Fin.le_def]
      omega
    · have hsome := AList.lookup_isSome.2 hn
      rw [hleft.other n hpath] at hsome
      exact h.upTo n (AList.lookup_isSome.1 hsome) g' hg
  · rw [LogUnused, hleft.other _ (logPath_succ_ne hmax)]
    exact h.unused

private theorem Based.rotate (h : Based files store.generation)
    (hmax : store.generation ≠ Word.maxValue 64) {s : Snapshot}
    (hdecode : decodeSnapshot bytes = .ok s)
    (hmagic : ∀ n < logMagic.length, fault ≠ some ⟨.writeMagic, n⟩) :
    (∃ result store' left, store.rotate fault bytes files = (result, store', left) ∧
      store'.log.path = logPath store'.generation ∧
      LogState left store'.generation (some s) [] logMagic logMagic.length) ∨
    ∃ e left, store.rotate fault bytes files = (.error e, store, left) ∧
      ((Untouched files left ∧ FailsEarly fault) ∨
        ((∃ image, left.lookup (logPath store.generation) = some image) ∧
          Ahead left store.generation s)) := by
  rcases rotate_cases fault bytes hmax h.unused with
    ⟨result, left, hrotate, _, hinstalled⟩ | ⟨e, left, hrotate, hearly | ⟨hrenamed, hlog⟩⟩
  · refine .inl ⟨result, _, left, hrotate, rfl, ?_, ?_, hinstalled.log_eq, List.prefix_rfl, ?_⟩
    · exact newest_eq (AList.lookup_isSome.1 (by rw [hinstalled.log_eq]; rfl))
        (generationOf_logPath _) (hinstalled.upTo h.upTo)
    · rw [readSnapshot, hinstalled.snapshot_eq]
      exact congrArg (Except.map some) hdecode
    · exact parses_magic
  · exact .inr ⟨e, left, hrotate, .inl hearly⟩
  · refine .inr ⟨e, left, hrotate, .inr ⟨?_, hmax, hrenamed.upTo h.upTo,
      ⟨bytes, hrenamed.snapshot_eq, hdecode⟩, ?_⟩⟩
    · rw [hrenamed.other _ (by simp) (snapshotPath_ne_logPath _ _).symm
        (logPath_succ_ne hmax).symm]
      exact h.image
    · rcases hlog with ⟨hunused, _⟩ | ⟨n, hfault, hlookup⟩
      · exact hunused
      · -- The failing write got the whole magic out.
        have hn : logMagic.length ≤ n := not_lt.1 fun hlt => hmagic n hlt hfault
        rw [List.take_of_length_le hn] at hlookup
        exact .inr hlookup

end Phases

section Persist

variable {history : History} {store : Store} {files : Directory} {fault : Option Fault}
  {policy : SyncPolicy} {b : Batch}

private theorem Held.of_log {g : Word 64} {left : Directory} {snapshot : Option Snapshot}
    {records : List Record} {image : Bytes} {stop : Nat}
    (hlog : LogState left g snapshot records image stop) (hcovered : Covered history snapshot records)
    (hgen : store.generation = g) (hpath : store.log.path = logPath g) :
    Held history store left := by
  subst hgen
  exact ⟨hpath, ⟨image, hlog.image_eq⟩, .inl ⟨snapshot, records, image, stop, hlog, hcovered⟩⟩

private theorem LogState.persistBefore_post {snapshot : Option Snapshot} {records : List Record}
    {image : Bytes} (h : LogState files store.generation snapshot records image image.length)
    (hpath : store.log.path = logPath store.generation) :
    Post (persistBefore fault policy b.commit store files)
      (fun out => (out.1.generation = store.generation ∧ out.1.log.path = store.log.path) ∧
        ∃ image', LogState out.2 store.generation snapshot (records ++ b.before) image'
          image'.length)
      (fun left => FailsEarly fault ∧ ∃ kept image' stop,
          LogState left store.generation snapshot (records ++ kept) image' stop) := by
  unfold persistBefore
  split
  next hnil =>
    have hbefore : b.before = [] := encodeAll_eq_nil (hnil ▸ b.before_eq)
    rw [hbefore, List.append_nil]
    exact Post.pure ⟨⟨rfl, rfl⟩, image, h⟩
  next =>
    refine (h.appendSynced_post hpath b.before_eq).weaken (fun _ hout => hout) ?_
    rintro left ⟨⟨f, hf, hop⟩, hleft⟩
    refine ⟨⟨f, hf, ?_⟩, hleft⟩
    rcases hop with hop | hop <;> rw [hop] <;> rfl

omit [Crc32] in
private theorem persist_post {commit : Commit} {P : Bool → Store → Directory → Prop}
    {Q R : Store → Directory → Prop}
    (hbefore : Post (persistBefore fault policy commit store files)
      (fun out => Q out.1 out.2) (P false store))
    (hsnapshot : ∀ store files, Q store files →
      ∃ result store' left, persistSnapshot fault commit store files = (result, store', left) ∧
        ((∃ e, result = .error e ∧ P false store' left) ∨ result = .ok () ∧ R store' left))
    (hframes : ∀ store files, R store files →
      Post (appendSynced fault .appendFrames .syncFrames policy commit.frames store files)
        (fun out => P true out.1 out.2) (P false store)) :
    P (persist fault policy commit store files).1.isOk (persist fault policy commit store files).2.1
      (persist fault policy commit store files).2.2 := by
  unfold persist
  cases hfirst : persistBefore fault policy commit store files with
  | error out =>
    rw [hfirst] at hbefore
    exact hbefore
  | ok out =>
    rw [hfirst] at hbefore
    obtain ⟨result, store', left, heq, ⟨e, rfl, herror⟩ | ⟨rfl, hok⟩⟩ := hsnapshot _ _ hbefore
    · simp only [heq]
      exact herror
    · have hlast := hframes _ _ hok
      simp only [heq]
      cases hout : appendSynced fault .appendFrames .syncFrames policy commit.frames store' left with
      | error out =>
        rw [hout] at hlast
        exact hlast
      | ok out =>
        rw [hout] at hlast
        exact hlast

private theorem Held.persist_nothing {w : Writer} (h : Held history w.store w.files)
    (hnone : b.commit.snapshot = none) (hbefore : b.commit.before = [])
    (hframes : b.commit.frames = []) :
    Held (history ++ [(b, (persist fault policy b.commit w.store w.files).1.isOk)])
      (persist fault policy b.commit w.store w.files).2.1
      (persist fault policy b.commit w.store w.files).2.2 := by
  obtain ⟨image, himage⟩ := h.image
  have hrecords : b.before = [] ∧ b.frames = [] :=
    ⟨encodeAll_eq_nil (hbefore ▸ b.before_eq), encodeAll_eq_nil (hframes ▸ b.frames_eq)⟩
  have hsame : ∀ left, Appended w.files left w.store.log.path [] → Untouched w.files left :=
    fun left hleft => Appended.untouched (h.path_eq ▸ hleft) himage
  refine persist_post (P := fun acked store left => Held (history ++ [(b, acked)]) store left)
    (Q := fun store files => store = w.store ∧ files = w.files)
    (R := fun store files => store = w.store ∧ files = w.files) ?_ ?_ ?_
  · rw [persistBefore, if_pos hbefore]
    exact Post.pure ⟨rfl, rfl⟩
  · rintro _ _ ⟨rfl, rfl⟩
    exact ⟨.ok (), w.store, w.files, by rw [persistSnapshot, hnone], .inr ⟨rfl, rfl, rfl⟩⟩
  · rintro _ _ ⟨rfl, rfl⟩
    rw [hframes]
    refine appendSynced_post.weaken ?_ ?_
    · rintro ⟨store', left⟩ ⟨⟨hgen, hpath⟩, hleft⟩
      exact h.untouched (hsame _ hleft) (fun _ => hrecords) hgen hpath
    · rintro left ⟨-, cut, hcut, hleft⟩
      rw [List.prefix_nil.1 hcut] at hleft
      exact h.untouched (hsame _ hleft) (fun _ => hrecords) rfl rfl

private theorem Held.persist_clean {w : Writer} (h : Held history w.store w.files)
    (hnone : b.commit.snapshot = none) (hclean : Clean w.store w.files) :
    Held (history ++ [(b, (persist fault policy b.commit w.store w.files).1.isOk)])
      (persist fault policy b.commit w.store w.files).2.1
      (persist fault policy b.commit w.store w.files).2.2 := by
  obtain ⟨snapshot, records, image, hlog, hcovered⟩ := h.clean hclean
  have hdropped : ∀ {store : Store} {left : Directory} {kept : List Record} {image : Bytes}
      {stop : Nat}, LogState left w.store.generation snapshot (records ++ kept) image stop →
      store.generation = w.store.generation → store.log.path = w.store.log.path →
      Held (history ++ [(b, false)]) store left := fun hleft hgen hpath =>
    .of_log hleft ((hcovered.grow _).snoc fun hc => nomatch hc) hgen (hpath.trans h.path_eq)
  let opened := fun (store : Store) (files : Directory) =>
    (store.generation = w.store.generation ∧ store.log.path = w.store.log.path) ∧
      ∃ image', LogState files w.store.generation snapshot (records ++ b.before) image'
        image'.length
  refine persist_post (P := fun acked store left => Held (history ++ [(b, acked)]) store left)
    (Q := opened) (R := opened) ?_ ?_ ?_
  · refine (hlog.persistBefore_post h.path_eq).weaken (fun _ hout => hout) ?_
    rintro left ⟨-, kept, image', stop, hleft⟩
    exact hdropped hleft rfl rfl
  · intro store files hopened
    exact ⟨.ok (), store, files, by rw [persistSnapshot, hnone], .inr ⟨rfl, hopened⟩⟩
  · rintro store files ⟨⟨hgen, hpath⟩, image', hopened⟩
    rw [← hgen] at hopened
    refine (hopened.appendSynced_post (by rw [hpath, h.path_eq, hgen]) b.frames_eq).weaken ?_ ?_
    · rintro ⟨store', left⟩ ⟨⟨hgen', hpath'⟩, image'', hleft⟩
      rw [hgen] at hleft
      refine .of_log hleft (((hcovered.grow _).grow _).snoc fun _ => ⟨.inl ?_, .inl ?_⟩)
        (hgen'.trans hgen) (hpath'.trans (hpath.trans h.path_eq))
      · exact ⟨records, b.frames, rfl⟩
      · exact ⟨records ++ b.before, [], List.append_nil _⟩
    · rintro left ⟨-, kept, image'', stop, hleft⟩
      rw [hgen, List.append_assoc] at hleft
      exact hdropped hleft hgen hpath

omit [Crc32] in
private theorem persistSnapshot_some {commit : Commit} {bytes : Bytes}
    (h : commit.snapshot = some bytes) :
    persistSnapshot fault commit store files = store.rotate fault bytes files := by
  simp only [persistSnapshot, h]

/-- The first phase of a batch with a snapshot: whatever it leaves, a rotation can start from it,
and unless the rotation gets past its rename the log it leaves is one the writer keeps. -/
private theorem Held.persistBefore_post {w : Writer} (h : Held history w.store w.files)
    (hsome : b.commit.snapshot.isSome = true) (hadm : Admissible w b.commit fault) :
    Post (persistBefore fault policy b.commit w.store w.files)
      (fun out => (out.1.generation = w.store.generation ∧ out.1.log.path = w.store.log.path) ∧
        Based out.2 w.store.generation ∧ (FailsEarly fault → Held history out.1 out.2))
      (fun left => Held (history ++ [(b, false)]) w.store left) := by
  have hmax := hadm.bounded hsome
  by_cases hnil : b.commit.before = []
  · rw [persistBefore, if_pos hnil]
    exact Post.pure ⟨⟨rfl, rfl⟩, h.based hmax, fun _ => h⟩
  have hretiring : retiring b.commit ≠ [] := by rwa [retiring, if_pos hsome]
  rcases hadm.clean hretiring with hclean | ⟨_, hlate⟩
  · obtain ⟨snapshot, records, image, hlog, hcovered⟩ := h.clean hclean
    refine (hlog.persistBefore_post h.path_eq).weaken ?_ ?_
    · rintro ⟨store', left⟩ ⟨⟨hgen, hpath⟩, image', hleft⟩
      have hheld : Held history store' left :=
        .of_log hleft (hcovered.grow _) hgen (hpath.trans h.path_eq)
      refine ⟨⟨hgen, hpath⟩, ?_, fun _ => hheld⟩
      have hbased := hheld.based (by rw [hgen]; exact hmax)
      rwa [hgen] at hbased
    · rintro left ⟨-, kept, image', stop, hleft⟩
      exact .of_log hleft ((hcovered.grow _).snoc fun hc => nomatch hc) rfl h.path_eq
  · rw [persistBefore, if_neg hnil]
    refine appendSynced_post.weaken ?_ ?_
    · rintro ⟨store', left⟩ ⟨hsame, hleft⟩
      rw [h.path_eq] at hleft
      exact ⟨hsame, (h.based hmax).append hmax hleft, fun hearly => absurd hearly hlate⟩
    · rintro left ⟨⟨f, hf, hop⟩, -⟩
      refine absurd ⟨f, hf, ?_⟩ hlate
      rcases hop with hop | hop <;> rw [hop] <;> rfl

private theorem Held.persist_rotating {w : Writer} (h : Held history w.store w.files)
    (hsome : b.commit.snapshot.isSome = true) (hadm : Admissible w b.commit fault) :
    Held (history ++ [(b, (persist fault policy b.commit w.store w.files).1.isOk)])
      (persist fault policy b.commit w.store w.files).2.1
      (persist fault policy b.commit w.store w.files).2.2 := by
  obtain ⟨bytes, hbytes⟩ := Option.isSome_iff_exists.1 hsome
  obtain ⟨s, hs, hdecode⟩ : ∃ s, b.snapshot = some s ∧ decodeSnapshot bytes = .ok s := by
    have heq := b.snapshot_eq
    rw [hbytes] at heq
    obtain ⟨s, hs, hok⟩ := Option.map_eq_some_iff.1 heq.symm
    exact ⟨s, hs, hok.symm⟩
  have hmax := hadm.bounded hsome
  refine persist_post (P := fun acked store left => Held (history ++ [(b, acked)]) store left)
    (Q := fun store files => (store.generation = w.store.generation ∧
      store.log.path = w.store.log.path) ∧ Based files w.store.generation ∧
        (FailsEarly fault → Held history store files))
    (R := fun store files => store.log.path = logPath store.generation ∧
      LogState files store.generation (some s) [] logMagic logMagic.length)
    (h.persistBefore_post hsome hadm) ?_ ?_
  · rintro store files ⟨⟨hgen, hpath⟩, hbased, hheld⟩
    rw [← hgen] at hbased hmax
    have hpath' : store.log.path = logPath store.generation := by rw [hpath, h.path_eq, hgen]
    rcases hbased.rotate hmax hdecode (hadm.magic hsome) with
      ⟨result, store', left, hrotate, hopen, hlog⟩ |
        ⟨e, left, hrotate, ⟨huntouched, hearly⟩ | ⟨himage, hahead⟩⟩
    · refine ⟨result, store', left, (persistSnapshot_some hbytes).trans hrotate, ?_⟩
      cases result with
      | error e =>
        exact .inl ⟨e, rfl, .of_log hlog (covered_of_snapshot hs fun hc => nomatch hc) rfl hopen⟩
      | ok _ => exact .inr ⟨rfl, hopen, hlog⟩
    · refine ⟨.error e, store, left, (persistSnapshot_some hbytes).trans hrotate, .inl ⟨e, rfl, ?_⟩⟩
      exact (hheld hearly).untouched huntouched (by simp) rfl rfl
    · refine ⟨.error e, store, left, (persistSnapshot_some hbytes).trans hrotate, .inl ⟨e, rfl, ?_⟩⟩
      exact ⟨hpath', himage, .inr ⟨s, hahead, covered_of_snapshot hs fun hc => nomatch hc⟩⟩
  · rintro store files ⟨hpath, hlog⟩
    refine (hlog.appendSynced_post hpath b.frames_eq).weaken ?_ ?_
    · rintro ⟨store', left⟩ ⟨⟨hgen, hpath'⟩, image, hleft⟩
      exact .of_log hleft (covered_of_snapshot hs fun _ => List.infix_rfl) hgen
        (hpath'.trans hpath)
    · rintro left ⟨-, kept, image, stop, hleft⟩
      exact .of_log hleft (covered_of_snapshot hs fun hc => nomatch hc) rfl hpath

private theorem Held.take {w : Writer} (h : Held history w.store w.files)
    (hadm : Admissible w b.commit fault) :
    Held (history ++ [(b, (w.take policy b.commit fault).2)])
      (w.take policy b.commit fault).1.store (w.take policy b.commit fault).1.files := by
  have hpersist : Held (history ++ [(b, (persist fault policy b.commit w.store w.files).1.isOk)])
      (persist fault policy b.commit w.store w.files).2.1
      (persist fault policy b.commit w.store w.files).2.2 := by
    by_cases hsome : b.commit.snapshot.isSome = true
    · exact h.persist_rotating hsome hadm
    have hnone : b.commit.snapshot = none := by simpa using hsome
    by_cases hempty : b.commit.before ++ b.commit.frames = []
    · obtain ⟨hbefore, hframes⟩ := List.append_eq_nil_iff.1 hempty
      exact h.persist_nothing hnone hbefore hframes
    · rcases hadm.clean (by rwa [retiring, if_neg hsome]) with hclean | ⟨hsome', _⟩
      · exact h.persist_clean hnone hclean
      · exact absurd hsome' hsome
  unfold Writer.take
  rcases hout : persist fault policy b.commit w.store w.files with ⟨result, store, left⟩
  rw [hout] at hpersist
  cases result with
  | error e => exact hpersist
  | ok _ => exact hpersist

end Persist

/-- Every batch of a run meets the condition in the state it finds. -/
def Admits (policy : SyncPolicy) : Writer → List (Batch × Option Fault) → Prop
  | _, [] => True
  | w, (b, fault) :: rest =>
    Admissible w b.commit fault ∧ Admits policy (w.take policy b.commit fault).1 rest

private theorem held_run {policy : SyncPolicy} {inputs : List (Batch × Option Fault)} {w : Writer}
    {history : History} (h : Held history w.store w.files) (hadmits : Admits policy w inputs) :
    let out := inputs.foldl (fun (w, history) (b, fault) =>
      let (w, acked) := w.take policy b.commit fault
      (w, history ++ [(b, acked)])) (w, history)
    Held out.2 out.1.store out.1.files := by
  induction inputs generalizing w history with
  | nil => exact h
  | cons input rest ih => exact ih (h.take hadmits.1) hadmits.2

private theorem held_of_resume {files files' left : Directory} {found : Recovered} {store : Store}
    {fault : Option Fault} (hrecover : Store.recover files = .ok (found, files'))
    (hresume : Store.resume fault found.generation files' = .ok (store, left)) :
    Held [] store left := by
  obtain ⟨hgen, hsnapshot, hlog, hfiles⟩ := recover_eq_ok hrecover
  have hcovered : Covered [] found.snapshot found.records := fun b later hsuffix =>
    nomatch List.suffix_nil.1 hsuffix
  obtain ⟨log, hopen, rfl⟩ : ∃ log, openLog fault (logPath found.generation) files' =
      .ok (log, left) ∧ store = ⟨found.generation, log⟩ := by
    unfold Store.resume at hresume
    cases hout : openLog fault (logPath found.generation) files' with
    | error e =>
      rw [hout] at hresume
      exact nomatch hresume
    | ok out =>
      rw [hout] at hresume
      obtain ⟨rfl, rfl⟩ := Prod.mk.inj (Except.ok.inj hresume)
      exact ⟨out.1, rfl, rfl⟩
  rw [hgen] at hopen ⊢
  cases himage : files.lookup (logPath (newest files)) with
  | none =>
    have hpost := openLog_post fault (.inl himage)
    rw [readLog, himage] at hlog
    obtain ⟨hrecords, htorn⟩ := Replay.mk.inj (Except.ok.inj hlog)
    obtain rfl : files' = files := by rw [hfiles, ← htorn, cutTorn]
    rw [hopen] at hpost
    obtain ⟨rfl, hmagic, -, hother⟩ := hpost
    have hmem : logPath (newest files') ∈ left := AList.lookup_isSome.1 (by rw [hmagic]; rfl)
    have hle : ∀ n ∈ left, ∀ g, generationOf n = some g → g ≤ newest files' := by
      intro n hn g hg
      by_cases hpath : n = logPath (newest files')
      · rw [hpath, generationOf_logPath] at hg
        exact (Option.some.inj hg).symm.le
      · have hsome := AList.lookup_isSome.2 hn
        rw [hother n hpath] at hsome
        exact le_newest (AList.lookup_isSome.1 hsome) hg
    have hstate : LogState left (newest files') found.snapshot found.records logMagic
        logMagic.length := by
      refine ⟨newest_eq hmem (generationOf_logPath _) hle, ?_, hmagic, List.prefix_rfl, ?_⟩
      · rw [readSnapshot, hother _ (snapshotPath_ne_logPath _ _)]
        exact hsnapshot
      · rw [← hrecords]
        exact parses_magic
    exact .of_log hstate hcovered rfl rfl
  | some image =>
    rw [readLog, himage] at hlog
    obtain ⟨hmagic, stop, hparses, htorn⟩ := parseLog_eq_ok.1 hlog
    have hstate : LogState files (newest files) found.snapshot found.records image stop :=
      ⟨rfl, hsnapshot, himage, hmagic, hparses⟩
    obtain ⟨image', hcut⟩ := hstate.cutTorn
    have htorn' : found.tornAt = if stop < image.length then some stop else none := htorn
    rw [← htorn', ← hfiles] at hcut
    obtain ⟨hpath, rfl⟩ := openLog_existing hcut.image_eq hcut.magic hopen
    exact .of_log hcut hcovered rfl hpath

/-- An acknowledged batch is found again, in the log or behind a snapshot, after every run whose
batches and failures meet the condition. -/
theorem acknowledged_batches_kept {files files' left : Directory} {found : Recovered}
    {store : Store} {fault : Option Fault} {policy : SyncPolicy}
    (inputs : List (Batch × Option Fault))
    (hrecover : Store.recover files = .ok (found, files'))
    (hresume : Store.resume fault found.generation files' = .ok (store, left))
    (hadmits : Admits policy ⟨store, left, [], []⟩ inputs) :
    ∃ found' files'', Store.recover ((Writer.run policy ⟨store, left, [], []⟩ inputs).1.files) =
        .ok (found', files'') ∧
      ∀ b later, (b, true) :: later <:+ (Writer.run policy ⟨store, left, [], []⟩ inputs).2 →
        Kept b later found'.snapshot found'.records := by
  have hheld := held_run (held_of_resume hrecover hresume) hadmits
  obtain ⟨snapshot, records, ⟨found', files'', hloads, rfl, rfl⟩, hcovered⟩ := hheld.loads
  exact ⟨found', files'', hloads, hcovered⟩

end Checksummed

attribute [local instance] Crc32.ieee

def forgetBatch (id : JobId) : Batch :=
  @Batch.mk Crc32.ieee
    ⟨[], (encodeAll [.forgotten id]).getD [], [⟨0, .status none⟩], [], none⟩
    [] [.forgotten id] none rfl rfl rfl

def freshWriter : Writer := ⟨freshStore, freshFiles, [], []⟩

/-- An append that fails after one byte, and a batch acknowledged behind it. -/
def tornInputs : List (Batch × Option Fault) :=
  [(forgetBatch ⟨0⟩, some ⟨.appendFrames, 1⟩), (forgetBatch ⟨1⟩, none)]

theorem acknowledged_batch_lost :
    ¬ ∃ found files', Store.recover
        (Writer.run .data freshWriter tornInputs).1.files = .ok (found, files') ∧
      ∀ b later, (b, true) :: later <:+ (Writer.run .data freshWriter tornInputs).2 →
        Kept b later found.snapshot found.records := by
  rintro ⟨found, files', hrecover, hkept⟩
  have hhistory : (Writer.run .data freshWriter tornInputs).2 =
      [(forgetBatch ⟨0⟩, false), (forgetBatch ⟨1⟩, true)] := by with_unfolding_all rfl
  have hfound : (Store.recover
      (Writer.run .data freshWriter tornInputs).1.files).toOption.map (·.1) =
        some ⟨0, none, [], some 8⟩ := by decide +kernel
  rw [hrecover] at hfound
  obtain rfl : found = ⟨0, none, [], some 8⟩ := Option.some.inj hfound
  have hlast := hkept (forgetBatch ⟨1⟩) [] (by rw [hhistory]; exact List.suffix_cons _ _)
  rcases Kept.frames hlast with hinfix | ⟨d, hd, _⟩
  · exact nomatch List.infix_nil.1 hinfix
  · exact nomatch hd

def snapshotBatch : Batch :=
  @Batch.mk Crc32.ieee
    ⟨[], (encodeAll [.forgotten ⟨1⟩]).getD [], [⟨1, .status none⟩], [], some emptyImage⟩
    [] [.forgotten ⟨1⟩] (some emptySnapshot) rfl rfl (by decide +kernel)

/-- An append that fails after one byte, and a batch acknowledged with a snapshot. -/
def rotatedInputs : List (Batch × Option Fault) :=
  [(forgetBatch ⟨0⟩, some ⟨.appendFrames, 1⟩), (snapshotBatch, none)]

/-- The snapshot's rotation leaves the torn log behind, so the batch behind it is found. -/
theorem acknowledged_batch_kept :
    (Writer.run .data freshWriter rotatedInputs).2 =
        [(forgetBatch ⟨0⟩, false), (snapshotBatch, true)] ∧
      ∃ found files', Store.recover
          (Writer.run .data freshWriter rotatedInputs).1.files = .ok (found, files') ∧
        ∀ b later, (b, true) :: later <:+
            (Writer.run .data freshWriter rotatedInputs).2 →
          Kept b later found.snapshot found.records := by
  refine ⟨by with_unfolding_all rfl, ?_⟩
  refine @acknowledged_batches_kept Crc32.ieee freshFiles freshFiles freshFiles ⟨0, none, [], none⟩
    freshStore none .data rotatedInputs rfl rfl ⟨?_, ?_, trivial⟩
  · exact Admissible.mk (fun _ => .inl ⟨rfl, [], rfl⟩) (by simp [forgetBatch])
      (by simp [forgetBatch])
  · exact Admissible.mk (fun _ => .inr ⟨rfl, fun ⟨_, hf, _⟩ => nomatch hf⟩)
      (fun _ _ _ => by simp) (fun _ => by decide +kernel)

end TaskerRT.Daemon
