namespace AssetSlots.Config

def starterLines : List String :=
  ["# scriptstacker configuration",
    "#",
    "# Put a slot marker on its own line in your HTML:",
    "#",
    "#     <!-- SLOT: CSS -->",
    "#     <!-- SLOT: JAVASCRIPT -->",
    "#",
    "# Each marker is replaced by one tag per file found in the paths below,",
    "# indented like the marker line.",
    "",
    "# Path declarations per asset kind, in output order. A plain string serves",
    "# files from the same path they are read from; a one-entry table maps a",
    "# source directory to a different URL prefix.",
    "[paths]",
    "css = [\"static/css\"]",
    "javascript = [",
    "    \x7b \"vendor/js\" = \"static/vendor\" \x7d,",
    "    \"static/js\",",
    "]",
    "",
    "# Stacker settings merge onto the built-in defaults field by field.",
    "# [stackers.css]",
    "# template = '<link rel=\"stylesheet\" href=\"%s\" />'",
    "# glob = \"*.css\"",
    "# slot = \"<!-- SLOT: CSS -->\"",
    "",
    "# New asset kinds must set every field.",
    "# [stackers.images]",
    "# template = '<link rel=\"preload\" as=\"image\" href=\"%s\" />'",
    "# glob = \"*.png\"",
    "# slot = \"<!-- SLOT: IMAGES -->\""]

def starter : String := String.join (starterLines.map (· ++ "\n"))

end AssetSlots.Config
