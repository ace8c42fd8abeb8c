import LuaLens.Corpus.Basic
import LuaLens.Symbol.Extract

/-!
The declarations of the Lua standard library, which every index holds after those of its project.
-/

namespace LuaLens.Builtins

def fileName : String := "stdlib.lua"

/-- The declaration file, line by line. -/
def sourceLines : List String :=
  [ "--- Declarations of the Lua standard library, indexed alongside every project.",
    "",
    "--- Prints its arguments to standard output, converted with tostring.",
    "-- @param ... values to print",
    "function print(...) end",
    "",
    "--- Returns the type of its argument as a string.",
    "-- @param v any value",
    "-- @return \"nil\", \"number\", \"string\", \"boolean\", \"table\", \"function\", \"thread\" or \"userdata\"",
    "function type(v) end",
    "",
    "--- Converts a value to a string.",
    "-- @param v any value",
    "function tostring(v) end",
    "",
    "--- Converts a value to a number, or returns nil.",
    "-- @param e value to convert",
    "-- @param base optional base between 2 and 36",
    "function tonumber(e, base) end",
    "",
    "--- Iterates over all key-value pairs of a table.",
    "-- @param t table to traverse",
    "-- @usage for k, v in pairs(t) do print(k, v) end",
    "function pairs(t) end",
    "",
    "--- Iterates over the integer keys 1, 2, ... of a table until the first nil.",
    "-- @param t table to traverse",
    "function ipairs(t) end",
    "",
    "--- Returns the next key-value pair of a table after the given key.",
    "-- @param t table to traverse",
    "-- @param k previous key, or nil to start",
    "function next(t, k) end",
    "",
    "--- Loads the given module.",
    "-- @param modname dotted module name",
    "-- @return the module's value",
    "function require(modname) end",
    "",
    "--- Raises an error.",
    "-- @param message error object",
    "-- @param level position to report",
    "function error(message, level) end",
    "",
    "--- Raises an error if v is false or nil.",
    "-- @param v value to check",
    "-- @param message error message",
    "function assert(v, message) end",
    "",
    "--- Calls f in protected mode.",
    "-- @param f function to call",
    "-- @param ... arguments for f",
    "-- @return true and the results of f, or false and the error",
    "function pcall(f, ...) end",
    "",
    "--- Calls f in protected mode with a message handler.",
    "-- @param f function to call",
    "-- @param msgh message handler",
    "function xpcall(f, msgh, ...) end",
    "",
    "--- Returns the arguments after position n, or their count when n is \"#\".",
    "function select(n, ...) end",
    "",
    "--- Sets the metatable of a table.",
    "-- @param t table",
    "-- @param mt metatable or nil",
    "function setmetatable(t, mt) end",
    "",
    "--- Returns the metatable of a value.",
    "function getmetatable(object) end",
    "",
    "--- Gets t[k] without invoking metamethods.",
    "function rawget(t, k) end",
    "",
    "--- Sets t[k] = v without invoking metamethods.",
    "function rawset(t, k, v) end",
    "",
    "--- Compares two values without invoking metamethods.",
    "function rawequal(a, b) end",
    "",
    "--- Returns the length of a table or string without invoking metamethods.",
    "function rawlen(v) end",
    "",
    "--- Loads a chunk from a string or function.",
    "-- @param chunk source text or reader function",
    "-- @param chunkname name used in messages",
    "-- @param mode \"b\", \"t\" or \"bt\"",
    "-- @param env upvalue environment",
    "function load(chunk, chunkname, mode, env) end",
    "",
    "--- Loads a chunk from a file.",
    "function loadfile(filename, mode, env) end",
    "",
    "--- Runs the named file as a Lua chunk.",
    "function dofile(filename) end",
    "",
    "--- Controls the garbage collector.",
    "-- @param opt \"collect\", \"stop\", \"restart\", \"count\", \"step\" or \"isrunning\"",
    "function collectgarbage(opt, ...) end",
    "",
    "--- String manipulation. Strings also index this table as methods.",
    "string = \x7b\x7d",
    "",
    "--- Returns the internal numeric codes of the characters s[i] to s[j].",
    "function string.byte(s, i, j) end",
    "",
    "--- Returns a string built from the given character codes.",
    "function string.char(...) end",
    "",
    "--- Returns a binary representation of a function.",
    "function string.dump(f, strip) end",
    "",
    "--- Looks for the first match of pattern in s.",
    "-- @param s subject",
    "-- @param pattern Lua pattern",
    "-- @param init start position",
    "-- @param plain disable pattern matching",
    "-- @return start and end indices plus captures, or nil",
    "function string.find(s, pattern, init, plain) end",
    "",
    "--- Returns a formatted string following the printf-like format.",
    "-- @usage string.format(\"%d items\", n)",
    "function string.format(formatstring, ...) end",
    "",
    "--- Returns an iterator over the matches of pattern in s.",
    "function string.gmatch(s, pattern) end",
    "",
    "--- Replaces matches of pattern in s.",
    "-- @param repl string, table or function producing the replacement",
    "-- @param n maximum number of substitutions",
    "function string.gsub(s, pattern, repl, n) end",
    "",
    "--- Returns the length of s.",
    "function string.len(s) end",
    "",
    "--- Returns s with upper case letters changed to lower case.",
    "function string.lower(s) end",
    "",
    "--- Returns the captures of the first match of pattern in s.",
    "function string.match(s, pattern, init) end",
    "",
    "--- Returns n copies of s separated by sep.",
    "function string.rep(s, n, sep) end",
    "",
    "--- Returns s reversed.",
    "function string.reverse(s) end",
    "",
    "--- Returns the substring of s from i to j.",
    "function string.sub(s, i, j) end",
    "",
    "--- Returns s with lower case letters changed to upper case.",
    "function string.upper(s) end",
    "",
    "--- Table manipulation.",
    "table = \x7b\x7d",
    "",
    "--- Concatenates the elements of a list.",
    "-- @param list table of strings or numbers",
    "-- @param sep separator",
    "function table.concat(list, sep, i, j) end",
    "",
    "--- Inserts value at position pos, shifting up the other elements.",
    "-- @usage table.insert(list, value)",
    "function table.insert(list, pos, value) end",
    "",
    "--- Moves elements from a1 to a2.",
    "function table.move(a1, f, e, t, a2) end",
    "",
    "--- Returns a new table with all arguments stored into keys 1, 2, ... and field n.",
    "function table.pack(...) end",
    "",
    "--- Removes the element at position pos and returns it.",
    "function table.remove(list, pos) end",
    "",
    "--- Sorts list elements in place.",
    "-- @param comp optional less-than function",
    "function table.sort(list, comp) end",
    "",
    "--- Returns the elements of the given list.",
    "function table.unpack(list, i, j) end",
    "",
    "--- Mathematical functions.",
    "math = \x7b\x7d",
    "",
    "--- The value of pi.",
    "math.pi = 3.141592653589793",
    "",
    "--- A value larger than any other numeric value.",
    "math.huge = 1 / 0",
    "",
    "--- Returns the absolute value of x.",
    "function math.abs(x) end",
    "",
    "--- Returns the smallest integral value not less than x.",
    "function math.ceil(x) end",
    "",
    "--- Returns the largest integral value not greater than x.",
    "function math.floor(x) end",
    "",
    "--- Returns the maximum of its arguments.",
    "function math.max(x, ...) end",
    "",
    "--- Returns the minimum of its arguments.",
    "function math.min(x, ...) end",
    "",
    "--- Returns the square root of x.",
    "function math.sqrt(x) end",
    "",
    "--- Returns a pseudo-random number.",
    "-- @param m lower bound, or upper bound when n is absent",
    "-- @param n upper bound",
    "function math.random(m, n) end",
    "",
    "--- Seeds the pseudo-random generator.",
    "function math.randomseed(x) end",
    "",
    "--- Returns the remainder of the division of x by y rounded towards zero.",
    "function math.fmod(x, y) end",
    "",
    "--- Returns the integral and fractional parts of x.",
    "function math.modf(x) end",
    "",
    "--- Returns x converted to an integer, or nil.",
    "function math.tointeger(x) end",
    "",
    "--- Returns \"integer\", \"float\" or nil.",
    "function math.type(x) end",
    "",
    "--- Returns the sine of x in radians.",
    "function math.sin(x) end",
    "",
    "--- Returns the cosine of x in radians.",
    "function math.cos(x) end",
    "",
    "--- Returns the logarithm of x in the given base.",
    "function math.log(x, base) end",
    "",
    "--- Returns e^x.",
    "function math.exp(x) end",
    "",
    "--- Input and output.",
    "io = \x7b\x7d",
    "",
    "--- Opens a file in the given mode.",
    "-- @param filename path to open",
    "-- @param mode \"r\", \"w\", \"a\", \"r+\", \"w+\" or \"a+\", optionally with \"b\"",
    "-- @return a file handle, or nil and an error message",
    "function io.open(filename, mode) end",
    "",
    "--- Closes a file, or the default output file.",
    "function io.close(file) end",
    "",
    "--- Reads from the default input file.",
    "function io.read(...) end",
    "",
    "--- Writes to the default output file.",
    "function io.write(...) end",
    "",
    "--- Returns an iterator over the lines of a file.",
    "function io.lines(filename, ...) end",
    "",
    "--- Starts a program and returns a handle to its input or output.",
    "function io.popen(prog, mode) end",
    "",
    "--- Returns a handle for a temporary file.",
    "function io.tmpfile() end",
    "",
    "--- Sets or returns the default input file.",
    "function io.input(file) end",
    "",
    "--- Sets or returns the default output file.",
    "function io.output(file) end",
    "",
    "--- Checks whether obj is a file handle.",
    "-- @return \"file\", \"closed file\" or nil",
    "function io.type(obj) end",
    "",
    "--- Methods of the handles returned by io.open, io.popen and io.tmpfile.",
    "file = \x7b\x7d",
    "",
    "--- Reads according to the given formats.",
    "-- @param ... \"n\", \"a\", \"l\" or \"L\", or a byte count",
    "function file:read(...) end",
    "",
    "--- Writes each argument to the file.",
    "function file:write(...) end",
    "",
    "--- Returns an iterator over the file's lines.",
    "function file:lines(...) end",
    "",
    "--- Closes the file.",
    "function file:close() end",
    "",
    "--- Saves any written data to the file.",
    "function file:flush() end",
    "",
    "--- Sets and gets the file position.",
    "-- @param whence \"set\", \"cur\" or \"end\"",
    "-- @param offset byte offset",
    "function file:seek(whence, offset) end",
    "",
    "--- Sets the buffering mode for the file.",
    "-- @param mode \"no\", \"full\" or \"line\"",
    "function file:setvbuf(mode, size) end",
    "",
    "--- Operating system facilities.",
    "os = \x7b\x7d",
    "",
    "--- Returns the CPU time used by the program in seconds.",
    "function os.clock() end",
    "",
    "--- Returns a string or table with the date and time.",
    "-- @param format strftime-like format, \"*t\" for a table",
    "function os.date(format, time) end",
    "",
    "--- Returns the number of seconds from time t1 to t2.",
    "function os.difftime(t2, t1) end",
    "",
    "--- Runs a shell command.",
    "function os.execute(command) end",
    "",
    "--- Terminates the host program.",
    "function os.exit(code, close) end",
    "",
    "--- Returns the value of an environment variable.",
    "function os.getenv(varname) end",
    "",
    "--- Deletes a file or empty directory.",
    "function os.remove(filename) end",
    "",
    "--- Renames a file or directory.",
    "function os.rename(oldname, newname) end",
    "",
    "--- Returns the current time, or the time of a date table.",
    "function os.time(t) end",
    "",
    "--- Returns a name usable for a temporary file.",
    "function os.tmpname() end",
    "",
    "--- Coroutine manipulation.",
    "coroutine = \x7b\x7d",
    "",
    "--- Creates a coroutine with body f.",
    "function coroutine.create(f) end",
    "",
    "--- Starts or continues a coroutine.",
    "-- @return true and the yielded values, or false and the error",
    "function coroutine.resume(co, ...) end",
    "",
    "--- Returns the running coroutine and whether it is the main one.",
    "function coroutine.running() end",
    "",
    "--- Returns \"running\", \"suspended\", \"normal\" or \"dead\".",
    "function coroutine.status(co) end",
    "",
    "--- Creates a coroutine and returns a function that resumes it.",
    "function coroutine.wrap(f) end",
    "",
    "--- Suspends the running coroutine.",
    "function coroutine.yield(...) end",
    "",
    "--- Returns whether the running coroutine can yield.",
    "function coroutine.isyieldable() end",
    "",
    "--- Closes a coroutine and its pending variables.",
    "function coroutine.close(co) end" ]

def source : String := String.join (sourceLines.map (· ++ "\n"))

/-- The entries of the declaration file. -/
def corpus : Corpus :=
  Corpus.ofSymbols (Label.builtinMark ++ "/" ++ fileName) (extractSymbols source "stdlib")

end LuaLens.Builtins
