import Stepwise.Parse.Program

/-!
# Library code

The array methods that call functions of the program. They are written in the language itself, so that
their calls are steps like any other.
-/

namespace Stepwise.Library

/-- The lines of the library's own code. -/
def scriptLines : List String :=
  ["",
   "Array.prototype.forEach = function forEach(callback, thisArg) \x7b",
   "  if (typeof callback !== 'function') throw new TypeError(callback + ' is not a function');",
   "  var len = this.length;",
   "  for (var i = 0; i < len; i++) \x7b",
   "    if (i in this) callback.call(thisArg, this[i], i, this);",
   "  \x7d",
   "\x7d;",
   "Array.prototype.map = function map(callback, thisArg) \x7b",
   "  if (typeof callback !== 'function') throw new TypeError(callback + ' is not a function');",
   "  var len = this.length;",
   "  var out = new Array(len);",
   "  for (var i = 0; i < len; i++) \x7b",
   "    if (i in this) out[i] = callback.call(thisArg, this[i], i, this);",
   "  \x7d",
   "  return out;",
   "\x7d;",
   "Array.prototype.filter = function filter(callback, thisArg) \x7b",
   "  if (typeof callback !== 'function') throw new TypeError(callback + ' is not a function');",
   "  var len = this.length;",
   "  var out = [];",
   "  for (var i = 0; i < len; i++) \x7b",
   "    if (i in this && callback.call(thisArg, this[i], i, this)) out.push(this[i]);",
   "  \x7d",
   "  return out;",
   "\x7d;",
   "Array.prototype.some = function some(callback, thisArg) \x7b",
   "  if (typeof callback !== 'function') throw new TypeError(callback + ' is not a function');",
   "  var len = this.length;",
   "  for (var i = 0; i < len; i++) \x7b",
   "    if (i in this && callback.call(thisArg, this[i], i, this)) return true;",
   "  \x7d",
   "  return false;",
   "\x7d;",
   "Array.prototype.every = function every(callback, thisArg) \x7b",
   "  if (typeof callback !== 'function') throw new TypeError(callback + ' is not a function');",
   "  var len = this.length;",
   "  for (var i = 0; i < len; i++) \x7b",
   "    if (i in this && !callback.call(thisArg, this[i], i, this)) return false;",
   "  \x7d",
   "  return true;",
   "\x7d;",
   "Array.prototype.reduce = function reduce(callback) \x7b",
   "  if (typeof callback !== 'function') throw new TypeError(callback + ' is not a function');",
   "  var len = this.length;",
   "  var i = 0;",
   "  var acc;",
   "  if (arguments.length > 1) \x7b",
   "    acc = arguments[1];",
   "  \x7d else \x7b",
   "    while (i < len && !(i in this)) i++;",
   "    if (i >= len) throw new TypeError('Reduce of empty array with no initial value');",
   "    acc = this[i++];",
   "  \x7d",
   "  for (; i < len; i++) \x7b",
   "    if (i in this) acc = callback(acc, this[i], i, this);",
   "  \x7d",
   "  return acc;",
   "\x7d;",
   "Array.prototype.reduceRight = function reduceRight(callback) \x7b",
   "  if (typeof callback !== 'function') throw new TypeError(callback + ' is not a function');",
   "  var i = this.length - 1;",
   "  var acc;",
   "  if (arguments.length > 1) \x7b",
   "    acc = arguments[1];",
   "  \x7d else \x7b",
   "    while (i >= 0 && !(i in this)) i--;",
   "    if (i < 0) throw new TypeError('Reduce of empty array with no initial value');",
   "    acc = this[i--];",
   "  \x7d",
   "  for (; i >= 0; i--) \x7b",
   "    if (i in this) acc = callback(acc, this[i], i, this);",
   "  \x7d",
   "  return acc;",
   "\x7d;",
   "Array.prototype.sort = function sort(compare) \x7b",
   "  if (compare !== undefined && typeof compare !== 'function') \x7b",
   "    throw new TypeError('The comparison function must be either a function or undefined');",
   "  \x7d",
   "  var len = this.length;",
   "  for (var i = 1; i < len; i++) \x7b",
   "    var item = this[i];",
   "    var j = i - 1;",
   "    while (j >= 0) \x7b",
   "      var a = this[j];",
   "      var order;",
   "      if (a === undefined) \x7b",
   "        order = item === undefined ? 0 : 1;",
   "      \x7d else if (item === undefined) \x7b",
   "        order = -1;",
   "      \x7d else if (compare) \x7b",
   "        order = compare(a, item);",
   "      \x7d else \x7b",
   "        order = String(a) > String(item) ? 1 : -1;",
   "      \x7d",
   "      if (!(order > 0)) break;",
   "      this[j + 1] = a;",
   "      j--;",
   "    \x7d",
   "    this[j + 1] = item;",
   "  \x7d",
   "  return this;",
   "\x7d;",
   ""]

/-- The text of the library's own code. -/
def scriptText : String := String.intercalate "\n" scriptLines

/-- The name of the source that the library's own code belongs to. -/
def scriptName : String := "polyfills"

/-- The number of the library's first node, far above those of a program. -/
def scriptFirst : Int := Nat.pow 2 24

/-- The program of a library's text, which is empty if the text cannot be read. -/
def read (text : String) : Program := (Program.parse text scriptFirst scriptName).toOption.getD default

/-- The library's own code. -/
def script : Program := read scriptText

end Stepwise.Library
