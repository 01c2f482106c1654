import Netstore.Search
import Netstore.Tokens

/-!
# The commands of the user

The client takes a line apart at its whitespace and puts what follows the first word
together again, with one space between the parts. The rules on parameters are about the
word as it is typed, and the command that is run is about the word in lower case.

* A name comes back as it was given exactly if its whitespace is single spaces, and none
  is at its beginning (`givenUnchanged_iff`).
* The case of the first word makes no difference, but for a command that is misused
  (`caseBlind_iff`).
* At the end of the input the client reads empty lines forever : the loop ends exactly if
  one of the lines ends it (`ends_iff`).
-/

namespace Netstore

open Tokens

/-! ## One line -/

/-- A blank. -/
def space : UInt8 := 32

/-- `iswspace`, in the C locale. -/
def isSpace (c : UInt8) : Bool :=
  c = space || (9 ≤ c && c ≤ 13)

/-- `boost::algorithm::to_lower`, in the C locale. -/
def toLower (s : Bytes) : Bytes :=
  s.map fun c => if 65 ≤ c ∧ c ≤ 90 then c + 32 else c

namespace Word

/-- The word that ends the client. -/
def exit : Bytes := ascii ['e', 'x', 'i', 't']
/-- The word for `Client::discover`. -/
def discover : Bytes := ascii ['d', 'i', 's', 'c', 'o', 'v', 'e', 'r']
/-- The word for `Client::search`. -/
def search : Bytes := ascii ['s', 'e', 'a', 'r', 'c', 'h']
/-- The word for `Client::fetch`. -/
def fetch : Bytes := ascii ['f', 'e', 't', 'c', 'h']
/-- The word for `Client::upload`. -/
def upload : Bytes := ascii ['u', 'p', 'l', 'o', 'a', 'd']
/-- The word for `Client::remove`. -/
def remove : Bytes := ascii ['r', 'e', 'm', 'o', 'v', 'e']

end Word

/-- The command is nothing without a parameter. -/
def isParamRequired (command : Bytes) : Bool :=
  command ∈ [Word.fetch, Word.upload, Word.remove]

/-- The command takes no parameter. -/
def noParameterAllowed (command : Bytes) : Bool :=
  command ∈ [Word.exit, Word.discover]

/-- `Client::read_user_command` : the line is split at white space, and what is behind the command
is joined again with one space each. -/
def readUserCommand (input : Bytes) : Except String (Bytes × Bytes) :=
  match splitRuns isSpace input with
  | [] => .error "no command inserted"
  | command :: params =>
    if params ≠ [] ∧ noParameterAllowed command then .error "too many parameters"
    else if params = [] ∧ isParamRequired command then .error "command required parameter"
    else .ok (command, [space].intercalate params)

/-- What one iteration of the loop of `Client::run` does. -/
inductive Iteration where
  | exit
  | discover
  | search (pattern : Bytes)
  | fetch (filename : Bytes) (serverIp : UInt32)
  /-- The name is not a result of the last search. -/
  | unknownFilename
  | upload (filePath : Bytes)
  | remove (filename : Bytes)
  /-- The exception is caught, and nothing is run. -/
  | invalidUserInput
  deriving DecidableEq

/-- The branches on the word in lower case. -/
def runCommand (lastSearchResults : SearchResults) (comm param : Bytes) :
    Except String Iteration :=
  if comm = Word.exit then .ok .exit
  else if comm = Word.discover then .ok .discover
  else if comm = Word.search then .ok (.search param)
  else if comm = Word.fetch then
    .ok ((lastSearchResults param).elim .unknownFilename (.fetch param))
  else if comm = Word.upload then .ok (.upload param)
  else if comm = Word.remove then .ok (.remove param)
  else .error "unknown command"

/-- An iteration of the loop of `Client::run` on a line. -/
def iteration (lastSearchResults : SearchResults) (input : Bytes) : Iteration :=
  let result := do
    let (comm, param) ← readUserCommand input
    runCommand lastSearchResults (toLower comm) param
  result.toOption.getD .invalidUserInput

/-- A command without the parameter that it requires, or with one where none is allowed. -/
def isMisuse (command : Bytes) (params : List Bytes) : Bool :=
  if params = [] then isParamRequired command else noParameterAllowed command

theorem isSpace_of_all {word : Bytes} (h : word.all fun c => !isSpace c) :
    ∀ c ∈ word, isSpace c = false := by
  simpa using h

section Iteration

variable {line command : Bytes} {params : List Bytes}

theorem readUserCommand_of_split (h : splitRuns isSpace line = command :: params)
    (hcommand : isMisuse command params = false) :
    readUserCommand line = .ok (command, [space].intercalate params) := by
  rw [readUserCommand, h]
  rw [isMisuse] at hcommand
  split_ifs at hcommand with hparams <;> simp [hparams, hcommand]

/-- The command is rejected by its word as it is typed, and run by its word in lower case. -/
theorem iteration_of_split (h : splitRuns isSpace line = command :: params)
    (results : SearchResults) : iteration results line =
      if isMisuse command params then .invalidUserInput
      else (runCommand results (toLower command) ([space].intercalate params)).toOption.getD
        .invalidUserInput := by
  split_ifs with hcommand
  · rw [isMisuse] at hcommand
    rw [iteration, readUserCommand, h]
    split_ifs at hcommand with hparams <;>
      simp [hparams, hcommand, bind, Except.bind, Except.toOption]
  · rw [iteration, readUserCommand_of_split h (by simpa using hcommand)]
    rfl

end Iteration

/-! ## The parameter -/

/-- Read after each command that takes a parameter, the name is the parameter, and it is
what is removed and fetched. -/
def GivenUnchanged (f : Bytes) : Prop :=
  (∀ command ∈ [Word.search, Word.fetch, Word.upload, Word.remove],
    readUserCommand (command ++ space :: f) = .ok (command, f)) ∧
  ∀ results : SearchResults, iteration results (Word.remove ++ space :: f) = .remove f ∧
    iteration results (Word.fetch ++ space :: f) =
      (results f).elim .unknownFilename (.fetch f)

/-- Each whitespace character of the name is a space, and has a character before it that is
none. -/
def SinglySpaced (f : Bytes) : Prop :=
  (∀ c ∈ f, isSpace c → c = space) ∧ (space :: f).IsChain fun x y => ¬(isSpace x ∧ isSpace y)

/-- After a command word and a space, the parameter is what the squeezed name is. -/
theorem splitRuns_command {word : Bytes} (hword : ∀ c ∈ word, isSpace c = false) (f : Bytes) :
    ∃ params, params ≠ [] ∧ splitRuns isSpace (word ++ space :: f) = word :: params ∧
      ([space].intercalate params = f ↔ SinglySpaced f) := by
  obtain ⟨params, hne, hline, hparams⟩ := splitRuns_word (l := space :: f) hword rfl
  refine ⟨params, hne, hline, ?_⟩
  have hsqueeze : space :: [space].intercalate params = squeeze isSpace space (space :: f) := by
    obtain ⟨t, ts, rfl⟩ := List.exists_cons_of_ne_nil hne
    rw [← intercalate_splitRuns, hparams, List.intercalate_cons_cons]
    rfl
  rw [← List.cons_inj_right space, hsqueeze, squeeze_eq_self_iff, SinglySpaced,
    List.forall_mem_cons]
  simp

/-- Every parameter has single spaces only. -/
theorem singlySpaced_of_split {line command : Bytes} {params : List Bytes}
    (h : splitRuns isSpace line = command :: params) :
    SinglySpaced ([space].intercalate params) := by
  cases params with
  | nil => exact ⟨fun c hc => (List.not_mem_nil hc).elim, List.isChain_singleton _⟩
  | cons t ts =>
    have hline : squeeze isSpace space line =
        command ++ space :: [space].intercalate (t :: ts) := by
      rw [← intercalate_splitRuns, h, List.intercalate_cons_cons, List.append_assoc]
      rfl
    have hsqueezed := (squeeze_eq_self_iff space _).mp (squeeze_squeeze (p := isSpace) rfl line)
    rw [hline] at hsqueezed
    exact ⟨fun c hc => hsqueezed.1 c (List.mem_append_right _ (List.mem_cons_of_mem _ hc)),
      hsqueezed.2.right_of_append⟩

/-- What is left of a line after its first word, if the word takes a parameter. -/
theorem split_of_command {command : Bytes}
    (h : command ∈ [Word.search, Word.fetch, Word.upload, Word.remove]) (f : Bytes) :
    ∃ params, splitRuns isSpace (command ++ space :: f) = command :: params ∧
      isMisuse command params = false ∧ ([space].intercalate params = f ↔ SinglySpaced f) := by
  have hwords : ∀ command ∈ [Word.search, Word.fetch, Word.upload, Word.remove],
      (command.all fun c => !isSpace c) ∧ noParameterAllowed command = false := by decide
  obtain ⟨hword, hparam⟩ := hwords command h
  obtain ⟨params, hne, hline, hiff⟩ := splitRuns_command (isSpace_of_all hword) f
  refine ⟨params, hline, ?_, hiff⟩
  rw [isMisuse, if_neg hne, hparam]

theorem iteration_fetch {f : Bytes} (h : SinglySpaced f) (results : SearchResults) :
    iteration results (Word.fetch ++ space :: f) =
      (results f).elim .unknownFilename (.fetch f) := by
  obtain ⟨params, hline, hmisuse, hiff⟩ := @split_of_command Word.fetch (by decide) f
  rw [iteration_of_split hline, if_neg (by simp [hmisuse]), hiff.mpr h]
  rfl

/-- What is fetched is a result of the last search, and a name that can be given. -/
theorem of_iteration_eq_fetch {results : SearchResults} {line f : Bytes} {serverIp : UInt32}
    (h : iteration results line = .fetch f serverIp) :
    results f = some serverIp ∧ SinglySpaced f := by
  obtain ⟨command, params, hline⟩ :=
    List.exists_cons_of_ne_nil (splitRuns_ne_nil (p := isSpace) line)
  rw [iteration_of_split hline, runCommand] at h
  split_ifs at h with hmisuse hexit hdiscover hsearch hfetch
  · cases h
  · cases h
  · cases h
  · cases hresult : results ([space].intercalate params) with
    | none => simp [hresult, Except.toOption] at h
    | some ip =>
      rw [hresult] at h
      obtain ⟨rfl, rfl⟩ := Iteration.fetch.inj h
      exact ⟨hresult, singlySpaced_of_split hline⟩
  all_goals cases h

/-- A name is given unchanged exactly if its whitespace is single spaces. -/
theorem givenUnchanged_iff (f : Bytes) : GivenUnchanged f ↔ SinglySpaced f := by
  constructor
  · intro h
    have hremove : Word.remove ∈ [Word.search, Word.fetch, Word.upload, Word.remove] := by decide
    obtain ⟨params, hline, hmisuse, hiff⟩ := split_of_command hremove f
    have hparam := (readUserCommand_of_split hline hmisuse).symm.trans (h.1 _ hremove)
    exact hiff.mp (Prod.mk.inj (Except.ok.inj hparam)).2
  · intro h
    refine ⟨fun command hcommand => ?_, fun results => ⟨?_, iteration_fetch h results⟩⟩
    · obtain ⟨params, hline, hmisuse, hiff⟩ := split_of_command hcommand f
      rw [readUserCommand_of_split hline hmisuse, hiff.mpr h]
    · obtain ⟨params, hline, hmisuse, hiff⟩ := @split_of_command Word.remove (by decide) f
      rw [iteration_of_split hline, if_neg (by simp [hmisuse]), hiff.mpr h]
      rfl

/-- The command to remove `a  b` removes `a b`. -/
theorem doubleSpace_not_givenUnchanged :
    iteration (fun _ => none) (Word.remove ++ space :: [97, 32, 32, 98]) = .remove [97, 32, 98] ∧
      ¬GivenUnchanged [97, 32, 32, 98] := by
  have hremoved : iteration (fun _ => none) (Word.remove ++ space :: [97, 32, 32, 98]) =
      .remove [97, 32, 98] := by decide
  refine ⟨hremoved, fun h => ?_⟩
  cases hremoved.symm.trans (h.2 fun _ => none).1

/-! ## The case of the first word -/

/-- The lines differ in nothing but the letter case of the first word. -/
inductive SameButCase : Bytes → Bytes → Prop where
  | intro {lead word word' rest : Bytes} (blank : ∀ c ∈ lead, isSpace c)
      (first : ∀ c ∈ word, isSpace c = false) (first' : ∀ c ∈ word', isSpace c = false)
      (lower : toLower word = toLower word') (ends : rest.head?.all isSpace) :
      SameButCase (lead ++ (word ++ rest)) (lead ++ (word' ++ rest))

/-- A command that is misused, in some spelling. -/
def Misused (line : Bytes) : Prop :=
  ∃ command params, splitRuns isSpace line = command :: params ∧ isMisuse (toLower command) params

/-- The word that the command is read from is typed in lower case. -/
def InLowerCase (line : Bytes) : Prop :=
  ∀ command ∈ (splitRuns isSpace line).head?, toLower command = command

/-- One iteration has the same result on both lines, and rejects them if the command is
misused. -/
def CaseBlind (line line' : Bytes) : Prop :=
  ∀ results, iteration results line = iteration results line' ∧
    (Misused line → iteration results line = .invalidUserInput)

section CaseBlind

variable {line line' command : Bytes} {params : List Bytes}

/-- After whitespace the command is empty, else it is the first word. -/
theorem SameButCase.split (h : SameButCase line line') :
    (∃ params params', splitRuns isSpace line = [] :: params ∧
      splitRuns isSpace line' = [] :: params') ∨
    ∃ command command' params, splitRuns isSpace line = command :: params ∧
      splitRuns isSpace line' = command' :: params ∧ toLower command = toLower command' := by
  obtain @⟨lead, word, word', rest, blank, first, first', lower, ends⟩ := h
  cases lead with
  | cons c lead =>
    have hhead : ∀ w, (c :: lead ++ w).head?.any isSpace := fun _ => blank c (List.mem_cons_self ..)
    obtain ⟨params, -, hline⟩ := splitRuns_of_head (hhead (word ++ rest))
    obtain ⟨params', -, hline'⟩ := splitRuns_of_head (hhead (word' ++ rest))
    exact Or.inl ⟨params, params', hline, hline'⟩
  | nil =>
    refine Or.inr ?_
    cases rest with
    | nil =>
      rw [List.append_nil, List.append_nil]
      exact ⟨word, word', [], splitRuns_eq_singleton first, splitRuns_eq_singleton first', lower⟩
    | cons c rest =>
      obtain ⟨params, -, hline, hparams⟩ := splitRuns_word (l := c :: rest) first ends
      obtain ⟨params', -, hline', hparams'⟩ := splitRuns_word (l := c :: rest) first' ends
      obtain rfl : params = params' := (List.cons.inj (hparams.symm.trans hparams')).2
      exact ⟨word, word', params, hline, hline', lower⟩

theorem misused_iff (h : splitRuns isSpace line = command :: params) :
    Misused line ↔ isMisuse (toLower command) params := by
  constructor
  · rintro ⟨command', params', hline, hmisuse⟩
    obtain ⟨rfl, rfl⟩ := List.cons.inj (h.symm.trans hline)
    exact hmisuse
  · exact fun hmisuse => ⟨command, params, h, hmisuse⟩

theorem inLowerCase_iff (h : splitRuns isSpace line = command :: params) :
    InLowerCase line ↔ toLower command = command := by
  simp [InLowerCase, h]

/-- A word with a rule is one of the words of the commands. -/
theorem mem_of_isMisuse (h : isMisuse command params) :
    command ∈ [Word.fetch, Word.upload, Word.remove, Word.exit, Word.discover] := by
  rw [isMisuse] at h
  split_ifs at h
  · exact List.mem_append_left [Word.exit, Word.discover] (of_decide_eq_true h)
  · exact List.mem_append_right [Word.fetch, Word.upload, Word.remove] (of_decide_eq_true h)

theorem toLower_of_isMisuse (h : isMisuse command params) : toLower command = command := by
  have hwords : ∀ word ∈ [Word.fetch, Word.upload, Word.remove, Word.exit, Word.discover],
      toLower word = word := by decide
  exact hwords command (mem_of_isMisuse h)

/-- The branches take every word with a rule. -/
theorem runCommand_of_isMisuse (h : isMisuse command params) (results : SearchResults)
    (param : Bytes) :
    (runCommand results command param).toOption.getD .invalidUserInput ≠ .invalidUserInput := by
  have hcommand := mem_of_isMisuse h
  simp only [List.mem_cons, List.not_mem_nil, or_false] at hcommand
  rcases hcommand with rfl | rfl | rfl | rfl | rfl
  · cases hparam : results param <;>
      simp [runCommand, hparam, Word.fetch, Word.exit, Word.discover, Word.search, ascii,
        Except.toOption]
  all_goals exact fun h => by cases h

theorem iteration_blank (h : splitRuns isSpace line = [] :: params) (results : SearchResults) :
    iteration results line = .invalidUserInput := by
  rw [iteration_of_split h]
  split_ifs <;> rfl

/-- A misused command is rejected exactly if it is typed in lower case. -/
theorem iteration_of_misuse (h : splitRuns isSpace line = command :: params)
    (hmisuse : isMisuse (toLower command) params) (results : SearchResults) :
    iteration results line = .invalidUserInput ↔ toLower command = command := by
  rw [iteration_of_split h]
  constructor
  · intro hrejected
    split_ifs at hrejected with hcommand
    · exact toLower_of_isMisuse hcommand
    · exact (runCommand_of_isMisuse hmisuse _ _ hrejected).elim
  · intro hlower
    rw [if_pos (hlower ▸ hmisuse)]

theorem iteration_of_not_misuse (h : splitRuns isSpace line = command :: params)
    (hmisuse : ¬isMisuse (toLower command) params) (results : SearchResults) :
    iteration results line =
      (runCommand results (toLower command) ([space].intercalate params)).toOption.getD
        .invalidUserInput := by
  rw [iteration_of_split h, if_neg fun hcommand => hmisuse ?_]
  rwa [toLower_of_isMisuse hcommand]

/-- The letter case of the first word makes no difference exactly if the command is not
misused or both lines have it in lower case. -/
theorem caseBlind_iff (h : SameButCase line line') :
    CaseBlind line line' ↔ (Misused line → InLowerCase line ∧ InLowerCase line') := by
  obtain ⟨params, params', hline, hline'⟩ | ⟨command, command', params, hline, hline', hlower⟩ :=
    h.split
  · refine iff_of_true (fun results => ?_) fun _ => ?_
    · rw [iteration_blank hline, iteration_blank hline']
      exact ⟨rfl, fun _ => rfl⟩
    · rw [inLowerCase_iff hline, inLowerCase_iff hline']
      exact ⟨rfl, rfl⟩
  rw [misused_iff hline, inLowerCase_iff hline, inLowerCase_iff hline']
  constructor
  · intro hblind hmisuse
    obtain ⟨hsame, hrejected⟩ := hblind fun _ => none
    have hrejected := hrejected ((misused_iff hline).mpr hmisuse)
    exact ⟨(iteration_of_misuse hline hmisuse _).mp hrejected,
      (iteration_of_misuse hline' (hlower ▸ hmisuse) _).mp (hsame.symm.trans hrejected)⟩
  · intro hcase results
    rw [misused_iff hline]
    by_cases hmisuse : isMisuse (toLower command) params
    · obtain ⟨hword, hword'⟩ := hcase hmisuse
      rw [(iteration_of_misuse hline hmisuse results).mpr hword,
        (iteration_of_misuse hline' (hlower ▸ hmisuse) results).mpr hword']
      exact ⟨rfl, fun _ => rfl⟩
    · rw [iteration_of_not_misuse hline hmisuse,
        iteration_of_not_misuse hline' (hlower ▸ hmisuse), hlower]
      exact ⟨rfl, fun h => (hmisuse (hlower ▸ h)).elim⟩

/-- The lines `remove a` and `Remove a`. -/
theorem removal_caseBlind :
    CaseBlind (Word.remove ++ [32, 97]) (82 :: Word.remove.tail ++ [32, 97]) := by
  have hsame : SameButCase (Word.remove ++ [32, 97]) (82 :: Word.remove.tail ++ [32, 97]) :=
    @SameButCase.intro [] Word.remove (82 :: Word.remove.tail) [32, 97]
      (fun _ h => (List.not_mem_nil h).elim) (isSpace_of_all rfl) (isSpace_of_all rfl) rfl rfl
  have hline : splitRuns isSpace (Word.remove ++ [32, 97]) = [Word.remove, [97]] := by decide
  refine (caseBlind_iff hsame).mpr fun hmisuse => ?_
  cases (misused_iff hline).mp hmisuse

/-- The line `exit a` is rejected, and `Exit a` ends the client. -/
theorem exitWithParameter_not_caseBlind :
    SameButCase (Word.exit ++ [32, 97]) (69 :: Word.exit.tail ++ [32, 97]) ∧
      ¬CaseBlind (Word.exit ++ [32, 97]) (69 :: Word.exit.tail ++ [32, 97]) := by
  have hlower : iteration (fun _ => none) (Word.exit ++ [32, 97]) = .invalidUserInput := by decide
  have hupper : iteration (fun _ => none) (69 :: Word.exit.tail ++ [32, 97]) = .exit := by decide
  refine ⟨@SameButCase.intro [] Word.exit (69 :: Word.exit.tail) [32, 97]
    (fun _ h => (List.not_mem_nil h).elim) (isSpace_of_all rfl) (isSpace_of_all rfl) rfl rfl,
    fun h => ?_⟩
  cases hlower.symm.trans ((h fun _ => none).1.trans hupper)

end CaseBlind

/-! ## The loop -/

/-- The client between two iterations. -/
structure CommandLoop where
  exit : Bool
  /-- The lines that are still to be read. -/
  lines : List Bytes
  lastSearchResults : SearchResults

namespace CommandLoop

/-- Before the first line is read. -/
def start (lines : List Bytes) : CommandLoop :=
  ⟨false, lines, fun _ => none⟩

/-- One iteration. A search leaves the results `found`. -/
def next (l : CommandLoop) (found : SearchResults) : CommandLoop :=
  if l.exit then l
  else
    -- after the last line `getline` leaves the string empty, and nothing looks at the stream
    let i := iteration l.lastSearchResults (l.lines.headD [])
    { exit := i = .exit
      lines := l.lines.tail
      lastSearchResults := if i matches .search _ then found else l.lastSearchResults }

/-- After `n` iterations. -/
def after (l : CommandLoop) (found : ℕ → SearchResults) : ℕ → CommandLoop
  | 0 => l
  | n + 1 => (l.next (found 0)).after (fun k => found (k + 1)) n

end CommandLoop

/-- Whatever the searches find, the loop is left after finitely many iterations. -/
def Ends (lines : List Bytes) : Prop :=
  ∀ found, ∃ n, ((CommandLoop.start lines).after found n).exit

/-- A line that ends the loop : its word is `exit` in some spelling, and it has no parameter
or is not typed in lower case. -/
def Exits (line : Bytes) : Prop :=
  ∃ command params, splitRuns isSpace line = command :: params ∧
    toLower command = Word.exit ∧ (command = Word.exit → params = [])

theorem runCommand_eq_exit_iff {results : SearchResults} {comm param : Bytes} :
    (runCommand results comm param).toOption.getD .invalidUserInput = .exit ↔
      comm = Word.exit := by
  rw [runCommand]
  split_ifs with hexit hdiscover hsearch hfetch
  · exact iff_of_true rfl hexit
  · exact iff_of_false (fun h => by cases h) hexit
  · exact iff_of_false (fun h => by cases h) hexit
  · refine iff_of_false (fun h => ?_) hexit
    cases hparam : results param <;> simp [hparam, Except.toOption] at h
  all_goals exact iff_of_false (fun h => by cases h) hexit

theorem iteration_eq_exit_iff {results : SearchResults} {line : Bytes} :
    iteration results line = .exit ↔ Exits line := by
  obtain ⟨command, params, hline⟩ :=
    List.exists_cons_of_ne_nil (splitRuns_ne_nil (p := isSpace) line)
  have hexits : Exits line ↔ toLower command = Word.exit ∧ (command = Word.exit → params = []) := by
    simp [Exits, hline]
  rw [iteration_of_split hline, hexits]
  split_ifs with hmisuse
  · refine iff_of_false (fun h => by cases h) fun ⟨hlower, hparams⟩ => ?_
    -- the word alone breaks no rule
    rw [toLower_of_isMisuse hmisuse] at hlower
    rw [hlower, hparams hlower] at hmisuse
    cases hmisuse
  · rw [runCommand_eq_exit_iff]
    refine (and_iff_left_of_imp fun _ hcommand => ?_).symm
    by_contra hparams
    exact hmisuse (by rw [hcommand, isMisuse, if_neg hparams]; rfl)

namespace CommandLoop

theorem next_exit_iff {l : CommandLoop} (h : l.exit = false) (found : SearchResults) :
    (l.next found).exit ↔ Exits (l.lines.headD []) := by
  rw [next, if_neg (by simp [h])]
  exact decide_eq_true_iff.trans iteration_eq_exit_iff

theorem next_lines {l : CommandLoop} (h : l.exit = false) (found : SearchResults) :
    (l.next found).lines = l.lines.tail := by
  rw [next, if_neg (by simp [h])]

/-- At the end of the input nothing ends the loop. -/
theorem not_exits_nil : ¬Exits [] := by
  rintro ⟨command, params, hline, hexit, -⟩
  obtain ⟨rfl, -⟩ := List.cons.inj hline
  cases hexit

/-- A loop without a line that ends it goes on. -/
theorem after_exit_eq_false {l : CommandLoop} (h : l.exit = false)
    (hlines : ∀ line ∈ l.lines, ¬Exits line) (found : ℕ → SearchResults) (n : ℕ) :
    (l.after found n).exit = false := by
  induction n generalizing l found with
  | zero => exact h
  | succ n ih =>
    refine ih ?_ (fun line hline => hlines line ?_) _
    · rw [← Bool.not_eq_true, next_exit_iff h]
      cases hl : l.lines with
      | nil => exact not_exits_nil
      | cons line lines => exact hlines line (hl ▸ List.mem_cons_self ..)
    · rw [next_lines h] at hline
      exact List.mem_of_mem_tail hline

/-- A loop with a line that ends it is left at that line or before. -/
theorem exists_after_exit {l : CommandLoop} {line : Bytes} (hmem : line ∈ l.lines)
    (hline : Exits line) (found : ℕ → SearchResults) : ∃ n, (l.after found n).exit := by
  obtain ⟨lines, hl⟩ : ∃ lines, l.lines = lines := ⟨_, rfl⟩
  induction lines generalizing l found with
  | nil => simp [hl] at hmem
  | cons line' lines ih =>
    cases h : l.exit with
    | true => exact ⟨0, h⟩
    | false =>
      rcases List.mem_cons.mp (hl ▸ hmem) with rfl | hmem
      · exact ⟨1, (next_exit_iff h _).mpr (by rwa [hl])⟩
      · have hnext : (l.next (found 0)).lines = lines := by rw [next_lines h, hl, List.tail_cons]
        obtain ⟨n, hn⟩ := ih (hnext.symm ▸ hmem) (fun k => found (k + 1)) hnext
        exact ⟨n + 1, hn⟩

end CommandLoop

/-- The loop ends exactly if a line ends it : the end of the input does not. -/
theorem ends_iff (lines : List Bytes) : Ends lines ↔ ∃ line ∈ lines, Exits line := by
  constructor
  · intro h
    obtain ⟨n, hn⟩ := h fun _ _ => none
    by_contra hlines
    push Not at hlines
    rw [CommandLoop.after_exit_eq_false rfl hlines] at hn
    cases hn
  · rintro ⟨line, hmem, hline⟩ found
    exact CommandLoop.exists_after_exit hmem hline found

/-- A client whose input is `discover` reads on when it is at its end. -/
theorem discover_not_ends : ¬Ends [Word.discover] := by
  intro h
  obtain ⟨n, hn⟩ := h fun _ _ => none
  have hdiscover : ∀ line ∈ [Word.discover], ¬Exits line := by
    intro line hline hexits
    rw [List.mem_singleton.mp hline, ← @iteration_eq_exit_iff fun _ => none] at hexits
    cases hexits
  rw [CommandLoop.after_exit_eq_false rfl hdiscover] at hn
  cases hn

end Netstore
