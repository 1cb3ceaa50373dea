import ProcessModel.Text.Lines

/-! The headers that every unit includes. -/

namespace ProcessModel.Code

def mathHeader : String := Text.ofLines
  ["/* Guarded elementary functions used by generated model units. */",
    "#ifndef MODELGEN_MATHUTILS_H",
    "#define MODELGEN_MATHUTILS_H",
    "",
    "#include <math.h>",
    "",
    "static inline double mu_exp(double x) \x7b",
    "    if (x > 709.0) \x7b",
    "        return INFINITY;",
    "    \x7d",
    "    if (x < -745.0) \x7b",
    "        return 0.0;",
    "    \x7d",
    "    return exp(x);",
    "\x7d",
    "",
    "static inline double mu_log(double x) \x7b",
    "    if (x == 0.0) \x7b",
    "        return -INFINITY;",
    "    \x7d",
    "    if (x < 0.0) \x7b",
    "        return NAN;",
    "    \x7d",
    "    return log(x);",
    "\x7d",
    "",
    "static inline double mu_fabs(double x) \x7b",
    "    return fabs(x);",
    "\x7d",
    "",
    "#endif"]

def pointerHeader : String := Text.ofLines
  ["/* Pointer tables backing link sequences (inlets, outlets, receivers, senders).",
    " *",
    " * A one-dimensional link field is an array of pointers into the values owned",
    " * by other elements; the host connects each entry before simulating. */",
    "#ifndef MODELGEN_POINTERUTILS_H",
    "#define MODELGEN_POINTERUTILS_H",
    "",
    "#include <stdlib.h>",
    "",
    "static inline double **pu_alloc_links(int length) \x7b",
    "    if (length <= 0) \x7b",
    "        return NULL;",
    "    \x7d",
    "    return (double **) calloc((size_t) length, sizeof(double *));",
    "\x7d",
    "",
    "static inline void pu_free_links(double ***links) \x7b",
    "    free(*links);",
    "    *links = NULL;",
    "\x7d",
    "",
    "static inline int pu_connect(double **links, int length, int idx, double *target) \x7b",
    "    if ((links == NULL) || (idx < 0) || (idx >= length)) \x7b",
    "        return 1;",
    "    \x7d",
    "    links[idx] = target;",
    "    return 0;",
    "\x7d",
    "",
    "#endif"]

def smoothHeader : String := Text.ofLines
  ["/* Smoothed threshold functions used by generated model units.",
    " *",
    " * A non-positive smoothing parameter gives the discontinuous limit. */",
    "#ifndef MODELGEN_SMOOTHUTILS_H",
    "#define MODELGEN_SMOOTHUTILS_H",
    "",
    "#include <math.h>",
    "#include \"mathutils.h\"",
    "",
    "/* Smoothed step from 0 to 1 around zero. */",
    "static inline double su_logistic1(double value, double parameter) \x7b",
    "    if (parameter <= 0.0) \x7b",
    "        if (value > 0.0) \x7b",
    "            return 1.0;",
    "        \x7d",
    "        if (value < 0.0) \x7b",
    "            return 0.0;",
    "        \x7d",
    "        return 0.5;",
    "    \x7d",
    "    return 1.0 / (1.0 + mu_exp(-value / parameter));",
    "\x7d",
    "",
    "/* Smoothed max(value, 0). */",
    "static inline double su_logistic2(double value, double parameter) \x7b",
    "    double temp;",
    "    if (parameter <= 0.0) \x7b",
    "        return fmax(value, 0.0);",
    "    \x7d",
    "    temp = value / parameter;",
    "    if (temp > 700.0) \x7b",
    "        return value;",
    "    \x7d",
    "    return parameter * log(1.0 + mu_exp(temp));",
    "\x7d",
    "",
    "#endif"]

def supportHeaders : List (String × String) :=
  [("mathutils.h", mathHeader), ("pointerutils.h", pointerHeader), ("smoothutils.h", smoothHeader)]

def systemHeaders : List String := ["math.h", "stdbool.h", "stdio.h", "stdlib.h", "string.h"]

end ProcessModel.Code
