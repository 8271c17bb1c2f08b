import HeroOS.ShellCat
import HeroOS.Tokenize

/-! # Running a command line

`shell_exec_line` of `userspace/heroshell/heroshell.c` copies the line, cuts the copy into words, looks up the first word
among the built-in commands with `strcmp`, and calls the command with `argv`.  What a command prints and returns is its
result here; `ls` and `cat`, which read the file system, are parameters.

* `shellExecLineIo_eq`: the result is that of the first 63 words of the line, whatever its blanks are (`runWords`);
* `shellExecLine_eq`: the command that is found is the one that the first word names;
* `builtinEcho_eq`: `echo` prints its words with one space between them. -/

namespace HeroOS

open CString

/-- The bytes of a string literal. -/
def literal (s : String) : List UInt8 := s.toUTF8.data.toList

/-- `printk` with an integer as its argument. -/
def printkWord (fmt : List UInt8) (w : UInt64) : Except Halt (List UInt8) := do
  let (_, st) ← vprintk (boundedString fmt) ⟨fun _ => w, fun _ => []⟩ (fmt.length + 1) 0 .start
  .ok st.out

/-- Calls of `printk` without arguments, one after the other. -/
def printkAll : List String → Except Halt (List UInt8)
  | [] => .ok []
  | s :: rest => do
      let out ← printk (literal s) []
      let more ← printkAll rest
      .ok (out ++ more)

/-! ### The commands -/

/-- What a command prints, and what it returns. -/
abbrev CmdResult := List UInt8 × ℤ

/-- `builtin_help` -/
def builtinHelp : Except Halt CmdResult := do
  let out ← printkAll [
    "HeroShell built-in commands:\n",
    "  help                  Show this help\n",
    "  exit [code]           Exit the shell\n",
    "  echo [args...]        Print arguments\n",
    "  cd <dir>              Change directory\n",
    "  ls [dir]              List directory contents\n",
    "  cat <file>            Print file contents\n",
    "  pwd                   Print working directory\n",
    "  clear                 Clear terminal\n",
    "  hero <subcommand>     HeroOS meta-tool\n",
    "    hero info           System information\n",
    "    hero serve [port]   Start HeroServe HTTP server\n",
    "    hero pkg <action>   Package manager\n"]
  .ok (out, 0)

/-- The space behind a word, if another one follows. -/
def echoSpace : List (List UInt8) → Except Halt (List UInt8)
  | [] => .ok []
  | _ :: _ => printk (literal " ") []

/-- The loop of `builtin_echo`. -/
def echoLoop : List (List UInt8) → Except Halt (List UInt8)
  | [] => .ok []
  | arg :: rest => do
      let word ← printk (literal "%s") arg
      let space ← echoSpace rest
      let more ← echoLoop rest
      .ok (word ++ space ++ more)

/-- `builtin_echo` -/
def builtinEcho (argv : List (List UInt8)) : Except Halt CmdResult := do
  let out ← echoLoop argv.tail
  let nl ← printk (literal "\n") []
  .ok (out ++ nl, 0)

/-- `builtin_cd` -/
def builtinCd : Except Halt CmdResult := do
  let out ← printkAll ["cd: not yet implemented\n"]
  .ok (out, 0)

/-- `builtin_pwd` -/
def builtinPwd : Except Halt CmdResult := do
  let out ← printkAll ["/\n"]
  .ok (out, 0)

/-- `builtin_clear` -/
def builtinClear : Except Halt CmdResult := do
  let out ← printkAll ["\x1b[2J\x1b[H"]
  .ok (out, 0)

/-- The port of `hero serve`: its argument's first character, a signed `char`, counts from 8000 on. -/
def heroPort (arg : List UInt8) : ℕ := (((arg.getD 0 0).toNat : ℤ).bmod (2 ^ 8) - 48 + 8000).toNat % 2 ^ 16

/-- `builtin_hero` -/
def builtinHero : List (List UInt8) → Except Halt CmdResult
  | _ :: sub :: rest =>
      if strcmpEq sub (ofList (literal "info")) then do
        let out ← printkAll ["HeroOS v0.1.0 — One OS, Many Platforms\n", "Architecture: x86_64\n"]
        .ok (out, 0)
      else if strcmpEq sub (ofList (literal "serve")) then do
        let port := match rest with
          | [] => 8080
          | arg :: _ => heroPort arg
        let out ← printkWord (literal "HeroServe starting on port %u...\n") (.ofNat port)
        .ok (out, 0)
      else if strcmpEq sub (ofList (literal "pkg")) then do
        let out ← printkAll ["HeroPkg: use 'heropkg install <package>'\n"]
        .ok (out, 0)
      else do
        let out ← printk (literal "hero: unknown subcommand '%s'\n") sub
        .ok (out, 1)
  | _ => do
      let out ← printkAll [
        "Usage: hero <subcommand>\n",
        "  hero info   — system info\n",
        "  hero serve  — start HTTP server\n",
        "  hero pkg    — package manager\n"]
      .ok (out, 1)

/-- `builtin_fn_t` for the commands that read the file system. -/
structure FsCommands where
  ls : List (List UInt8) → Except Halt CmdResult
  cat : List (List UInt8) → Except Halt CmdResult

/-- `builtins[i].fn(argc, argv)` -/
def Builtin.fn (fs : FsCommands) : Builtin → List (List UInt8) → Except Halt CmdResult
  | .help, _ => builtinHelp
  | .exit, _ => .ok ([], 0)
  | .echo, argv => builtinEcho argv
  | .cd, _ => builtinCd
  | .ls, argv => fs.ls argv
  | .cat, argv => fs.cat argv
  | .pwd, _ => builtinPwd
  | .clear, _ => builtinClear
  | .hero, argv => builtinHero argv

/-- `shell_exec_line`, with what it prints and returns. -/
def shellExecLineIo (fs : FsCommands) (line : Buf) : Except Halt CmdResult :=
  if line 0 = 0 then .ok ([], 0)
  else do
    let buf := Function.update (strncpyBuf line line (SHELL_LINE_MAX - 1)) (SHELL_LINE_MAX - 1) 0
    let (buf, argv) ← tokenize buf SHELL_LINE_MAX SHELL_MAX_ARGS
    match argv with
    | [] => .ok ([], 0)
    | arg :: _ => do
        let args ← argv.mapM fun arg => cstrFrom buf (SHELL_LINE_MAX - arg) arg
        match builtins.find? fun builtin => strcmpEqFrom buf builtin.name arg with
        | some builtin => builtin.fn fs args
        | none => do
            let out ← printk (literal "%s: command not found\n") (args.headD [])
            .ok (out, 127)

/-! ### What a line means -/

/-- The command that a word names. -/
def commandOf (word : List UInt8) : Option Builtin := builtins.find? fun builtin => builtin.name == word

/-- The result of a line with these words. -/
def runWords (fs : FsCommands) : List (List UInt8) → Except Halt CmdResult
  | [] => .ok ([], 0)
  | word :: args =>
      match commandOf word with
      | some builtin => builtin.fn fs (word :: args)
      | none => .ok (word ++ literal ": command not found\n", 127)

/-- The words of a text. -/
abbrev wordsOf (text : List UInt8) : List (List UInt8) := Words.words isBlank text

variable {fs : FsCommands} {line buf : Buf} {text w : List UInt8} {n i : ℕ}

/-- Comparing with the string that starts at an offset. -/
theorem strcmpEqFrom_cstrFrom {a : List UInt8} (ha : NoNul a) (h : cstrFrom buf n i = .ok w) :
    strcmpEqFrom buf a i = (a == w) := by
  induction a generalizing n i w with
  | nil =>
      have hhead := cstrFrom_head h
      rw [strcmpEqFrom, hhead]
      cases w with
      | nil => rfl
      | cons c w =>
          have hc : c ≠ 0 := (cstrFrom_eq_ok_iff.mp h).2.1 c List.mem_cons_self
          simpa using hc
  | cons x xs ih =>
      have hx : x ≠ 0 := ha x List.mem_cons_self
      have hxs : NoNul xs := fun y hy => ha y (List.mem_cons_of_mem _ hy)
      have hhead := cstrFrom_head h
      rw [strcmpEqFrom, hhead]
      cases w with
      | nil => simp [hx.symm]
      | cons c w =>
          have htail : cstrFrom buf (n - 1) (i + 1) = .ok w := cstrFrom_suffix (a := [c]) h
          rw [ih hxs htail]
          simp [eq_comm, Bool.beq_eq_decide_eq]

theorem noNul_name (builtin : Builtin) : NoNul builtin.name := by
  cases builtin <;> decide +kernel

/-- The offsets in `argv` are those of the words. -/
theorem mapM_cstrFrom {argv : List ℕ} {ws : List (List UInt8)}
    (h : List.Forall₂ (fun arg word => cstrFrom buf (n - arg) arg = .ok word) argv ws) :
    argv.mapM (fun arg => cstrFrom buf (n - arg) arg) = .ok ws := by
  induction h with
  | nil => rfl
  | cons hw _ ih =>
      rw [List.mapM_cons, hw, ih]
      rfl

/-- **Cutting the copy** of a line that is not empty: the words stand at the offsets that `tokenize` stores. -/
theorem tokenize_copy (h : cstr line SHELL_LINE_MAX = .ok text) : ∃ buf argv,
    tokenize (Function.update (strncpyBuf line line (SHELL_LINE_MAX - 1)) (SHELL_LINE_MAX - 1) 0) SHELL_LINE_MAX SHELL_MAX_ARGS =
        .ok (buf, argv) ∧
      List.Forall₂ (fun arg word => cstrFrom buf (SHELL_LINE_MAX - arg) arg = .ok word) argv
        ((wordsOf text).take (SHELL_MAX_ARGS - 1)) := by
  have hlen : text.length ≤ SHELL_LINE_MAX - 1 := Nat.le_pred_of_lt (cstr_eq_ok_iff.mp h).1
  have hcopy : cstrFrom (Function.update (strncpyBuf line line (SHELL_LINE_MAX - 1)) (SHELL_LINE_MAX - 1) 0) (SHELL_LINE_MAX - 0) 0 =
      .ok text := by
    rw [← strn_of_cstr h hlen]
    exact cstr_strncpyBuf line line (by decide)
  obtain ⟨buf, argv, (htok : tokenize _ SHELL_LINE_MAX SHELL_MAX_ARGS = _), hcut⟩ := tokenizeFrom_words hcopy
  exact ⟨buf, argv, htok, hcut.found.imp fun _ _ hw => hw.2⟩

/-- An empty line has no words. -/
theorem line_head (h : cstr line SHELL_LINE_MAX = .ok text) : line 0 = 0 ↔ text = [] := by
  have hhead := cstrFrom_head h
  rw [hhead]
  cases text with
  | nil => simp
  | cons c text =>
      have hc : c ≠ 0 := (cstr_eq_ok_iff.mp h).2.1 c List.mem_cons_self
      simp [hc]

/-- The line `%s` and a text without conversions. -/
theorem printk_not_found (w : List UInt8) :
    printk (literal "%s: command not found\n") w = .ok (w ++ literal ": command not found\n") := by
  have hfmt : literal "%s: command not found\n" = [] ++ (ascii ['%', 's'] ++ literal ": command not found\n") := by
    decide +kernel
  have hpost : ∀ b ∈ literal ": command not found\n", b ≠ 0 ∧ b ≠ '%'.toUInt8 := by decide +kernel
  rw [hfmt, printk_string (List.forall_mem_nil _) hpost, List.nil_append]

/-- **The result of a line** is that of its words. -/
theorem shellExecLineIo_eq (fs : FsCommands) (h : cstr line SHELL_LINE_MAX = .ok text) :
    shellExecLineIo fs line = runWords fs ((wordsOf text).take (SHELL_MAX_ARGS - 1)) := by
  unfold shellExecLineIo
  have hhead := line_head h
  by_cases h0 : line 0 = 0
  · rw [if_pos h0, hhead.mp h0]
    rfl
  · obtain ⟨buf, argv, htok, hfound⟩ := tokenize_copy h
    rw [if_neg h0]
    dsimp only
    rw [htok]
    generalize (wordsOf text).take (SHELL_MAX_ARGS - 1) = words at hfound
    cases hfound with
    | nil => rfl
    | @cons arg word argv args hw hargs =>
        have hmap := mapM_cstrFrom (.cons hw hargs)
        have hfind : builtins.find? (fun builtin => strcmpEqFrom buf builtin.name arg) = commandOf word := by
          unfold commandOf
          congr 1
          funext builtin
          exact strcmpEqFrom_cstrFrom (noNul_name builtin) hw
        simp only [bind, Except.bind] at hmap ⊢
        rw [hmap, hfind, runWords]
        cases commandOf word with
        | some builtin => rfl
        | none =>
            dsimp only
            rw [List.headD_cons, printk_not_found]

/-- The command that is found is the one that the first word names. -/
theorem shellExecLine_eq (h : cstr line SHELL_LINE_MAX = .ok text) :
    shellExecLine line = .ok ((wordsOf text).head?.bind commandOf) := by
  unfold shellExecLine
  have hhead := line_head h
  by_cases h0 : line 0 = 0
  · rw [if_pos h0, hhead.mp h0]
    rfl
  · obtain ⟨buf, argv, htok, hfound⟩ := tokenize_copy h
    rw [if_neg h0]
    dsimp only
    rw [htok]
    have hfirst : (wordsOf text).head? = ((wordsOf text).take (SHELL_MAX_ARGS - 1)).head? := by
      rw [List.head?_take]
      rfl
    rw [hfirst]
    generalize (wordsOf text).take (SHELL_MAX_ARGS - 1) = words at hfound
    cases hfound with
    | nil => rfl
    | @cons arg word argv args hw hargs =>
        have hfind : builtins.find? (fun builtin => strcmpEqFrom buf builtin.name arg) = commandOf word := by
          unfold commandOf
          congr 1
          funext builtin
          exact strcmpEqFrom_cstrFrom (noNul_name builtin) hw
        exact congrArg Except.ok hfind

/-! ### `echo` -/

theorem printk_plain (s : String) (h : ∀ b ∈ literal s, b ≠ 0 ∧ b ≠ '%'.toUInt8) : printk (literal s) [] = .ok (literal s) := by
  have hnul : NoNul (literal s) := fun b hb => (h b hb).1
  unfold printk
  rw [vprintk_boundedString hnul (Nat.lt_succ_self _)]
  have hformat : format ⟨fun _ => 1, fun _ => []⟩ (literal s ++ []) .start = format ⟨fun _ => 1, fun _ => []⟩ [] _ :=
    format_ordinaries fun b hb => (h b hb).2
  rw [List.append_nil, format] at hformat
  rw [hformat]
  rfl

theorem echoLoop_eq (args : List (List UInt8)) : echoLoop args = .ok ((literal " ").intercalate args) := by
  have hspace : printk (literal " ") [] = .ok (literal " ") := printk_plain " " (by decide +kernel)
  have hs : literal "%s" = ascii ['%', 's'] := by decide +kernel
  induction args with
  | nil => rfl
  | cons arg args ih =>
      rw [echoLoop, hs, printk_percent_s, ih]
      cases args with
      | nil => simp [echoSpace, List.intercalate, bind, Except.bind]
      | cons next rest => simp [echoSpace, hspace, List.intercalate, bind, Except.bind]

/-- **`echo`** prints its words with one space between them. -/
theorem builtinEcho_eq (word : List UInt8) (args : List (List UInt8)) :
    builtinEcho (word :: args) = .ok ((literal " ").intercalate args ++ literal "\n", 0) := by
  have hnl : printk (literal "\n") [] = .ok (literal "\n") := printk_plain "\n" (by decide +kernel)
  rw [builtinEcho, List.tail_cons, echoLoop_eq, hnl]
  rfl

/-- **Executing a line.**  For every line in its buffer, `shell_exec_line` gives the command that the first word names the
first 63 words of the line, and does what the command does with them; without a word it does nothing, and with an unknown
one it returns 127.  So `echo` prints the words behind it, however they are separated. -/
theorem shell_exec_line_words (fs : FsCommands) (h : cstr line SHELL_LINE_MAX = .ok text) :
    shellExecLineIo fs line = runWords fs ((wordsOf text).take 63) ∧
      ∀ args, wordsOf text = Builtin.echo.name :: args → args.length ≤ 62 →
        shellExecLineIo fs line = .ok ((literal " ").intercalate args ++ literal "\n", 0) := by
  have heq : shellExecLineIo fs line = runWords fs ((wordsOf text).take 63) := shellExecLineIo_eq fs h
  refine ⟨heq, fun args hargs hlen => ?_⟩
  have hecho : commandOf Builtin.echo.name = some .echo := by decide +kernel
  rw [heq, hargs, List.take_of_length_le (by rw [List.length_cons]; omega), runWords, hecho]
  exact builtinEcho_eq _ args

/-- Commands that find no file. -/
def noFiles : FsCommands := ⟨fun _ => .ok ([], 1), fun _ => .ok ([], 1)⟩

/-- `  echo<tab>a   b` -/
theorem shell_exec_line_words_echo :
    shellExecLineIo noFiles (ofList (literal "  echo\ta   b")) = .ok (literal "a b\n", 0) := by
  have hline : cstr (ofList (literal "  echo\ta   b")) SHELL_LINE_MAX = .ok (literal "  echo\ta   b") := by
    refine cstr_eq_ok_iff.mpr ⟨by decide +kernel, by decide +kernel, fun j _ => rfl⟩
  have hwords : wordsOf (literal "  echo\ta   b") = [Builtin.echo.name, literal "a", literal "b"] := by decide +kernel
  rw [(shell_exec_line_words noFiles hline).2 _ hwords (by decide)]
  decide +kernel

end HeroOS
